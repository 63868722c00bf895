import Mathlib
import SymbolicFit.Proofs.FloatIntegers
import SymbolicFit.Proofs.UntracedTrees

/-!
The trees that compile without a trace. Every node has a rule about itself, and compilation fails at
a node that breaks its rule.
-/

namespace SymbolicFit

open Drafting (Compiles)
open Scalar

variable {α : Type} [Scalar α]

namespace Tree

omit [Scalar α] in
/-- The value of a number without children, free or fixed. -/
def number? : Tree α → Option α
  | node (.constant v) [] | node (.fixed v) [] => some v
  | _ => none

/-- A childless number that is finite and equals an integer of at most 31 bits. -/
def IsInteger (t : Tree α) (n : ℤ) : Prop :=
  ∃ v, t.number? = some v ∧ isFinite v = true ∧ n.natAbs ≤ 2147483647 ∧ ((n : α) == v) = true

/-- The rule of a node: the children that its symbol takes, and the exponents. -/
def Formed : Tree α → Prop
  | node s cs =>
    match s with
    | .constant _ | .fixed _ | .column .. | .indicator .. | .factor .. => True
    | .fold .add | .fold .sub | .fold .mul | .fold .div => cs ≠ []
    | .pair .quotient => cs.length = 2
    | .elementary _ | .program => cs.length = 1
    | .power => ∃ base exponent n, cs = [base, exponent] ∧ exponent.IsInteger n
    | .root => ∃ base exponent n, cs = [base, exponent] ∧ exponent.IsInteger n ∧ n ≠ 0
    | _ => False

omit [Scalar α] in
/-- The children that are compiled. -/
def operands : Tree α → List (Tree α)
  | node s cs => if s.isLeaf then [] else if s.takesExponent then cs.take 1 else cs

/-- Every node that is compiled keeps its rule. -/
inductive Accepted : Tree α → Prop
  | intro {t : Tree α} (formed : t.Formed) (operands : ∀ c ∈ t.operands, Accepted c) : Accepted t

theorem accepted_iff {t : Tree α} : t.Accepted ↔ t.Formed ∧ ∀ c ∈ t.operands, c.Accepted :=
  ⟨fun ⟨formed, operands⟩ => ⟨formed, operands⟩, fun h => ⟨h.1, h.2⟩⟩

theorem accepted_leaf {s : Symbol α} (cs : List (Tree α)) (hs : s.isLeaf = true) :
    (node s cs).Accepted := by
  refine accepted_iff.2 ⟨?_, fun c hc => ?_⟩
  · cases s with
    | constant | fixed | column | indicator | factor => trivial
    | _ => cases hs
  · rw [operands, if_pos hs] at hc
    cases hc

omit [Scalar α] in
theorem operands_exponent {s : Symbol α} (hs : s.takesExponent = true) (base exponent : Tree α) :
    (node s [base, exponent]).operands = [base] := by
  rw [operands, Symbol.isLeaf_of_takesExponent hs, hs]
  rfl

omit [Scalar α] in
theorem operands_other {s : Symbol α} (hl : s.isLeaf = false) (hs : s.takesExponent = false)
    (cs : List (Tree α)) : (node s cs).operands = cs := by
  rw [operands, hl, hs]
  rfl

/-- Nodes that keep their rule have as many children as their symbol is compiled with. -/
theorem accepts_of_formed {s : Symbol α} {cs : List (Tree α)} (hs : s.isLeaf = false)
    (h : (node s cs).Formed) : s.accepts .scalar cs.length = true := by
  cases s with
  | constant | fixed | column | indicator | factor => cases hs
  | fold op =>
    cases op with
    | add | sub | mul | div =>
      obtain ⟨c, cs, rfl⟩ := List.exists_cons_of_ne_nil h
      rfl
    | _ => cases h
  | pair op =>
    cases op with
    | quotient => exact beq_iff_eq.2 h
    | _ => cases h
  | elementary f => exact beq_iff_eq.2 h
  | program => exact beq_iff_eq.2 h
  | power =>
    obtain ⟨base, exponent, n, rfl, -⟩ := h
    rfl
  | root =>
    obtain ⟨base, exponent, n, rfl, -⟩ := h
    rfl
  | _ => cases h

omit [Scalar α] in
theorem count_of_accepts {s : Symbol α} {shape : Shape} {count : Nat}
    (hs : s.takesExponent = true) (h : s.accepts shape count = true) : count = 2 := by
  cases s with
  | power | root => exact beq_iff_eq.1 h
  | _ => cases hs

/-- Where there is no exponent, the number of children is the whole rule. -/
theorem formed_of_accepts {s : Symbol α} {cs : List (Tree α)} (hs : s.takesExponent = false)
    (h : s.accepts .scalar cs.length = true) : (node s cs).Formed := by
  cases s with
  | constant | fixed | column | indicator | factor => trivial
  | fold op =>
    cases op with
    | add | sub | mul | div =>
      rintro rfl
      cases h
    | _ => cases h
  | pair op =>
    cases op with
    | quotient => exact beq_iff_eq.1 h
    | _ => cases h
  | elementary f => exact beq_iff_eq.1 h
  | program => exact beq_iff_eq.1 h
  | power => cases hs
  | root => cases hs
  | aggregate g => simp [Symbol.accepts, Shape.isVector] at h
  | _ => cases h

variable [SmallIntegers α]

theorem integerExponent?_eq_some {v : α} {n : Int32} :
    Symbol.integerExponent? v = some n ↔
      isFinite v = true ∧ n.toInt.natAbs ≤ 2147483647 ∧ ((n.toInt : α) == v) = true := by
  constructor
  · intro h
    obtain ⟨⟨hv, hn⟩, h⟩ := Option.ite_none_right_eq_some.1 h
    obtain rfl := Option.some.inj h
    exact ⟨(SmallIntegers.of_beq hn hv).1, hn, hv⟩
  · rintro ⟨-, hn, hv⟩
    rw [Symbol.integerExponent?, Int32.toInt_inj.1 (SmallIntegers.of_beq hn hv).2]
    exact if_pos ⟨hv, hn⟩

theorem isInteger_toInt {t : Tree α} {n : Int32} :
    t.IsInteger n.toInt ↔ t.number?.bind Symbol.integerExponent? = some n := by
  simp only [Option.bind_eq_some_iff, integerExponent?_eq_some]
  rfl

theorem IsInteger.exists_toInt {t : Tree α} {n : ℤ} (h : t.IsInteger n) :
    ∃ m : Int32, m.toInt = n := by
  obtain ⟨v, -, -, hn, hv⟩ := h
  exact ⟨toInt32 v, (SmallIntegers.of_beq hn hv).2⟩

omit [SmallIntegers α] in
theorem exponentOp?_power (t : Tree α) :
    Symbol.power.exponentOp? t = (t.number?.bind Symbol.integerExponent?).map .power := by
  obtain ⟨u, cs⟩ := t
  cases u <;> cases cs <;> rfl

omit [SmallIntegers α] in
theorem exponentOp?_root (t : Tree α) : Symbol.root.exponentOp? t =
    (t.number?.bind Symbol.integerExponent?).bind fun n =>
      if n = 0 then none else some (.root n) := by
  obtain ⟨u, cs⟩ := t
  cases u <;> cases cs <;> rfl

/-- A power or root with a base and an exponent keeps its rule if the exponent gives an
operation. -/
theorem formed_exponent {s : Symbol α} (hs : s.takesExponent = true) (base exponent : Tree α) :
    (node s [base, exponent]).Formed ↔ ∃ op, s.exponentOp? exponent = some op := by
  cases s with
  | power =>
    rw [exponentOp?_power]
    constructor
    · rintro ⟨_, _, _, ⟨⟩, hn⟩
      obtain ⟨n, rfl⟩ := hn.exists_toInt
      exact ⟨_, congrArg (Option.map _) (isInteger_toInt.1 hn)⟩
    · rintro ⟨op, hop⟩
      obtain ⟨n, hn, -⟩ := Option.map_eq_some_iff.1 hop
      exact ⟨base, exponent, n.toInt, rfl, isInteger_toInt.2 hn⟩
  | root =>
    rw [exponentOp?_root]
    constructor
    · rintro ⟨_, _, _, ⟨⟩, hn, h₀⟩
      obtain ⟨n, rfl⟩ := hn.exists_toInt
      have hn₀ : n ≠ 0 := fun h => h₀ (congrArg Int32.toInt h)
      exact ⟨_, Option.bind_eq_some_iff.2 ⟨n, isInteger_toInt.1 hn, if_neg hn₀⟩⟩
    · rintro ⟨op, hop⟩
      obtain ⟨n, hn, hop⟩ := Option.bind_eq_some_iff.1 hop
      have hn₀ : n.toInt ≠ 0 := fun h =>
        (Option.ite_none_left_eq_some.1 hop).1 (Int32.toInt_inj.1 h)
      exact ⟨base, exponent, n.toInt, rfl, isInteger_toInt.2 hn, hn₀⟩
  | _ => cases hs

end Tree

namespace Drafting.Compiles

variable {E : Failure → Prop} {R : ColumnRead → Prop}

omit [Scalar α] in
theorem combine_scalar {id : Nat} {op : BinaryOp} {a b : Shaped Nat} (ha : a.shape = .scalar)
    (hb : b.shape = .scalar) :
    Compiles E R (Drafting.combine id op a b : Drafting α (Shaped Nat))
      fun out => out.shape = .scalar :=
  combine (f := fun _ _ => ()) (v := .scalar ()) (w := .scalar ()) ha hb rfl

omit [Scalar α] in
theorem combineAll_scalar {id : Nat} {op : BinaryOp} {a : Shaped Nat} {as : List (Shaped Nat)}
    (ha : a.shape = .scalar) (has : ∀ b ∈ as, b.shape = .scalar) :
    Compiles E R (as.foldlM (Drafting.combine id op) a : Drafting α (Shaped Nat))
      fun out => out.shape = .scalar := by
  induction as generalizing a with
  | nil => exact .pure ha
  | cons b as ih =>
    obtain ⟨hb, has⟩ := List.forall_mem_cons.1 has
    exact (combine_scalar ha hb).bind fun c hc => ih hc has

omit [Scalar α] in
theorem unary_scalar {op : UnaryOp} {a : Shaped Nat} (ha : a.shape = .scalar) :
    Compiles E R (a.mapM (Drafting.unary op) : Drafting α (Shaped Nat))
      fun out => out.shape = .scalar :=
  (shapedMapM (fun _ => emit _) a).imp fun _ h => h.trans ha

end Drafting.Compiles

namespace Symbol

variable {E : Failure → Prop} {R : ColumnRead → Prop} {o : FitOptions} {id : Nat}

omit [Scalar α] in
/-- Without a trace, every leaf compiles to a scalar. -/
theorem compileLeaf_scalar {s : Symbol α} {x : Drafting α (Shaped Nat)}
    (hx : s.compileLeaf? o .scalar id = some x) :
    Compiles E (fun _ => True) x fun out => out.shape = .scalar := by
  have hscalar : ∀ {y : Drafting α Nat}, Compiles E (fun _ => True) y (fun _ => True) →
      Compiles E (fun _ => True) (Shaped.scalar <$> y) fun out => out.shape = .scalar :=
    fun hy => .map (hy.imp fun _ _ => rfl)
  cases s with
  | constant v =>
    cases hx
    refine hscalar ?_
    split_ifs
    · exact .parameter id _ v
    · exact .emit _
  | fixed v =>
    cases hx
    exact hscalar (.emit _)
  | column name w lag index =>
    cases hx
    refine (Compiles.weight o id _ w).bind fun i _ => ?_
    cases index <;> exact hscalar (.weighted trivial i)
  | indicator name category w =>
    cases hx
    exact (Compiles.weight o id _ w).bind fun i _ => hscalar (.weighted trivial i)
  | factor name ws =>
    cases hx
    refine (Compiles.mapM fun cw _ => ?_).bind fun addends _ => hscalar (.emit _)
    exact (Compiles.weight o id _ cw.2).bind fun i _ => .weighted trivial i
  | _ => cases hx

/-- An operation that takes no exponent compiles on as many scalars as it accepts. -/
theorem assemble_scalar {s : Symbol α} {args : List (Shaped Nat)} (hs : s.takesExponent = false)
    (ha : s.accepts .scalar args.length = true) (hargs : ∀ a ∈ args, a.shape = .scalar) :
    Compiles E R (s.assemble id args) fun out => out.shape = .scalar := by
  cases s with
  | fold op =>
    cases args with
    | nil => simp [accepts] at ha
    | cons a rest =>
      obtain ⟨h, hrest⟩ := List.forall_mem_cons.1 hargs
      simp only [assemble]
      rcases hop : op.primitive? with _ | ⟨binary, _ | f⟩
      · simp [accepts, hop] at ha
      · cases rest with
        | nil => exact .pure h
        | cons b rest => exact .combineAll_scalar h hrest
      · cases rest with
        | nil => exact .unary_scalar h
        | cons b rest => exact .combineAll_scalar h hrest
  | pair op =>
    cases op with
    | quotient =>
      obtain ⟨a, b, rfl⟩ := List.length_eq_two.1 (beq_iff_eq.1 ha)
      exact .combine_scalar (hargs a (by simp)) (hargs b (by simp))
    | _ => cases ha
  | elementary f =>
    obtain ⟨a, rfl⟩ := List.length_eq_one_iff.1 (beq_iff_eq.1 ha)
    exact .unary_scalar (hargs a (by simp))
  | program =>
    obtain ⟨a, rfl⟩ := List.length_eq_one_iff.1 (beq_iff_eq.1 ha)
    exact .pure (hargs a (by simp))
  | aggregate g => simp [accepts, Shape.isVector] at ha
  | power | root => cases hs
  | _ => cases ha

end Symbol

namespace Tree

/-- The failure names a node among these that breaks its rule, by its place from `id` on. -/
def Blames (nodes : List (Tree α)) (id : Nat) (e : Failure) : Prop :=
  ∃ i n, nodes[i]? = some n ∧ ¬n.Formed ∧ e = .unsupportedSymbol (id + i) n.symbol.name

theorem blames_root {s : Symbol α} {cs : List (Tree α)} (id : Nat) (h : ¬(node s cs).Formed) :
    Blames (node s cs).reached id (.unsupportedSymbol id s.name) :=
  ⟨0, node s cs, rfl, h, rfl⟩

theorem Blames.child {s : Symbol α} {cs : List (Tree α)} {id : Nat} {e : Failure}
    (hs : s.isLeaf = false) (h : Blames (reachedAmong cs) (id + 1) e) :
    Blames (node s cs).reached id e := by
  obtain ⟨i, n, hn, hf, rfl⟩ := h
  refine ⟨i + 1, n, ?_, hf, by rw [Nat.add_assoc, Nat.add_comm 1]⟩
  rwa [reached, List.getElem?_cons_succ, hs]

theorem Blames.head {t : Tree α} {id : Nat} {e : Failure} (ts : List (Tree α))
    (h : Blames t.reached id e) : Blames (reachedAmong (t :: ts)) id e := by
  obtain ⟨i, n, hn, hf, rfl⟩ := h
  refine ⟨i, n, ?_, hf, rfl⟩
  rwa [reachedAmong, List.getElem?_append_left (List.getElem?_eq_some_iff.1 hn).1]

theorem Blames.tail {t : Tree α} {id : Nat} {e : Failure} {ts : List (Tree α)}
    (h : Blames (reachedAmong ts) (id + t.reach) e) : Blames (reachedAmong (t :: ts)) id e := by
  obtain ⟨i, n, hn, hf, rfl⟩ := h
  refine ⟨t.reach + i, n, ?_, hf, by rw [Nat.add_assoc]⟩
  rwa [reachedAmong, ← length_reached, List.getElem?_append_right (Nat.le_add_right _ _),
    Nat.add_sub_cancel_left]

variable {o : FitOptions}

mutual

/-- Compilation succeeds on accepted trees, and fails at a node that breaks its rule. -/
theorem compileAt_grammar [SmallIntegers α] : ∀ (t : Tree α) (id : Nat),
    Compiles (fun e => ¬t.Accepted ∧ Blames t.reached id e) (fun _ => True)
      (t.compileAt o none id) fun out => out.shape = .scalar ∧ t.Accepted
  | node s cs, id => by
    have hself : ¬(node s cs).Formed →
        ¬(node s cs).Accepted ∧ Blames (node s cs).reached id (.unsupportedSymbol id s.name) :=
      fun h => ⟨fun hacc => h (accepted_iff.1 hacc).1, blames_root id h⟩
    cases hs : s.isLeaf
    · by_cases ha : s.accepts (Trace.shapeOf none (id + 1)) cs.length = true
      · rcases exponent_cases s cs with ⟨he, base, exponent, rfl⟩ | he
        · have hformed := formed_exponent he base exponent
          have hacc := accepted_iff (t := node s [base, exponent])
          rw [operands_exponent he, List.forall_mem_singleton] at hacc
          have herror : ∀ e, ¬base.Accepted ∧ Blames base.reached (id + 1) e →
              ¬(node s [base, exponent]).Accepted ∧
                Blames (node s [base, exponent]).reached id e :=
            fun e h => ⟨fun hroot => h.1 (hacc.1 hroot).2, (h.2.head [exponent]).child hs⟩
          rw [compileAt_exponent he]
          -- the exponent is not compiled, so a failure is of the base or of the node itself
          refine ((compileAt_grammar base (id + 1)).imp_error herror).bind fun x hx => ?_
          split
          · rename_i op hop
            exact (Compiles.unary_scalar hx.1).imp fun _ hout =>
              ⟨hout, hacc.2 ⟨hformed.2 ⟨op, hop⟩, hx.2⟩⟩
          · rename_i hop
            refine .throw (hself fun h => ?_)
            obtain ⟨op, hop'⟩ := hformed.1 h
            rw [hop] at hop'
            cases hop'
        · have hexponent : s.takesExponent = false :=
            Bool.eq_false_iff.2 fun h => he h (count_of_accepts h ha)
          have hacc := accepted_iff (t := node s cs)
          rw [operands_other hs hexponent] at hacc
          have herror : ∀ e, (¬∀ c ∈ cs, c.Accepted) ∧ Blames (reachedAmong cs) (id + 1) e →
              ¬(node s cs).Accepted ∧ Blames (node s cs).reached id e :=
            fun e h => ⟨fun hroot => h.1 (hacc.1 hroot).2, h.2.child hs⟩
          rw [compileAt_other hs he ha]
          refine ((compileAllAt_grammar cs (id + 1)).imp_error herror).bind fun args hargs => ?_
          refine (Symbol.assemble_scalar hexponent ?_ hargs.2.1).imp fun _ hout => ⟨hout, ?_⟩
          · rw [hargs.1]
            exact ha
          · exact hacc.2 ⟨formed_of_accepts hexponent ha, hargs.2.2⟩
      · rw [compileAt_rejected hs ha]
        exact .throw (hself fun h => ha (accepts_of_formed hs h))
    · obtain ⟨x, hx⟩ := Symbol.compileLeaf?_of_isLeaf hs o (Trace.shapeOf none id) id
      rw [compileAt_leaf hx]
      exact (Symbol.compileLeaf_scalar hx).imp fun _ hout => ⟨hout, accepted_leaf cs hs⟩

theorem compileAllAt_grammar [SmallIntegers α] : ∀ (ts : List (Tree α)) (id : Nat),
    Compiles (fun e => (¬∀ t ∈ ts, t.Accepted) ∧ Blames (reachedAmong ts) id e) (fun _ => True)
      (compileAllAt o none id ts) fun args =>
        args.length = ts.length ∧ (∀ a ∈ args, a.shape = .scalar) ∧ ∀ t ∈ ts, t.Accepted
  | [], id => .pure ⟨rfl, nofun, nofun⟩
  | t :: ts, id => by
    have hiff := List.forall_mem_cons (p := Accepted) (a := t) (l := ts)
    have hhead : ∀ e, ¬t.Accepted ∧ Blames t.reached id e →
        (¬∀ u ∈ t :: ts, u.Accepted) ∧ Blames (reachedAmong (t :: ts)) id e :=
      fun e h => ⟨fun hall => h.1 (hiff.1 hall).1, h.2.head ts⟩
    have htail : ∀ e, (¬∀ u ∈ ts, u.Accepted) ∧ Blames (reachedAmong ts) (id + t.reach) e →
        (¬∀ u ∈ t :: ts, u.Accepted) ∧ Blames (reachedAmong (t :: ts)) id e :=
      fun e h => ⟨fun hall => h.1 (hiff.1 hall).2, h.2.tail⟩
    rw [compileAllAt]
    refine ((compileAt_grammar t id).imp_error hhead).bind fun x hx => ?_
    refine ((compileAllAt_grammar ts (id + t.reach)).imp_error htail).bind fun xs hxs => ?_
    refine .pure ⟨?_, ?_, ?_⟩
    · exact congrArg (· + 1) hxs.1
    · exact List.forall_mem_cons.2 ⟨hx.1, hxs.2.1⟩
    · exact hiff.2 ⟨hx.2, hxs.2.2⟩

end

variable [SmallIntegers α]

theorem compileOutput_grammar (t : Tree α) :
    Compiles (fun e => ¬t.Accepted ∧ Blames t.reached 0 e) (fun _ => True)
      (t.compileOutput o none) fun _ => t.Accepted := by
  have hscalar : ∀ out : Shaped Nat, out.shape = .scalar ∧ t.Accepted →
      Compiles (fun e => ¬t.Accepted ∧ Blames t.reached 0 e) (fun _ => True)
        (compileOutput.scalar out : Drafting α Nat) fun _ => t.Accepted := by
    rintro (i | is) ⟨hout, h⟩
    · exact .pure h
    · cases hout
  unfold compileOutput
  split_ifs
  · exact (Compiles.parameter 0 _ _).bind fun _ _ => (Compiles.parameter 0 _ _).bind fun _ _ =>
      (compileAt_grammar t 0).bind fun out hout => (hscalar out hout).bind fun _ h =>
        (Compiles.emit _).bind fun _ _ => (Compiles.emit _).imp fun _ _ => h
  · exact (compileAt_grammar t 0).bind hscalar

/-- Without a trace, exactly the accepted trees compile. The failure of another tree names a node
that breaks its rule, with its position if leaves have no children. -/
theorem compile_grammar (t : Tree α) (o : FitOptions) :
    ((∃ c, t.compile o none = .ok c) ↔ t.Accepted) ∧
      ∀ e, t.compile o none = .error e → ∃ id n, n ∈ t.nodes ∧ ¬n.Formed ∧
        e = .unsupportedSymbol id n.symbol.name ∧ (t.LeavesBare → t.node? id = some n) := by
  have houtput := compileOutput_grammar (o := o) t
  have herror : ∀ e, t.compile o none = .error e → ¬t.Accepted ∧ Blames t.reached 0 e :=
    fun e he => houtput.error (compile_error.1 he)
  refine ⟨⟨?_, fun ht => ?_⟩, fun e he => ?_⟩
  · rintro ⟨c, hc⟩
    obtain ⟨out, d, hout, -⟩ := compile_ok.1 hc
    exact (houtput.ok hout).1
  · cases hc : t.compile o none with
    | error e => exact absurd ht (herror e hc).1
    | ok c => exact ⟨c, rfl⟩
  -- positions count the reached nodes, which are all nodes if leaves are bare
  · obtain ⟨i, n, hn, hf, rfl⟩ := (herror e he).2
    refine ⟨0 + i, n, mem_nodes_of_reached t (List.mem_of_getElem? hn), hf, rfl, fun ht => ?_⟩
    rwa [node?, ← reached_eq_nodes t ht, Nat.zero_add]

end Tree

section Exponent

/-- The tree `x + root(y, 0.5)`. -/
def halfRootTree : Tree Float :=
  .node (.fold .add) [.node (.column "x" 1 0 none) [],
    .node .root [.node (.column "y" 1 0 none) [], .node (.constant 0.5) []]]

theorem compile_grammar_halfRoot :
    halfRootTree.compile {} none = .error (.unsupportedSymbol 2 "Root") ∧
      ¬halfRootTree.Accepted ∧ ∃ n, halfRootTree.node? 2 = some n ∧ ¬n.Formed := by
  have he : halfRootTree.compile {} none = .error (.unsupportedSymbol 2 "Root") := rfl
  have hbare : halfRootTree.LeavesBare := by
    simp [halfRootTree, Tree.leavesBare_node, Symbol.isLeaf]
  obtain ⟨hiff, herror⟩ := Tree.compile_grammar halfRootTree {}
  refine ⟨he, fun h => ?_, ?_⟩
  · obtain ⟨c, hc⟩ := hiff.2 h
    rw [he] at hc
    cases hc
  · obtain ⟨id, n, -, hf, hname, hid⟩ := herror _ he
    injection hname with hid'
    exact ⟨n, hid' ▸ hid hbare, hf⟩

end Exponent

end SymbolicFit
