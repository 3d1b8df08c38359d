import SymScript.Proofs.MadeNodes
import SymScript.Proofs.SortKey
import SymScript.Workbench

/-!
# Arithmetic on number nodes

A number node may be made from any two integers and a sign: it need not be in lowest terms, its sign
may come from either integer or from the flag, zero may be negated, and a denominator of one may be
written in its name.  Sums and products of such nodes are exact all the same, and zero and one are
recognised in every spelling.  Simplifying brings all spellings of a number to one, so that
simplified nodes are equal exactly if their numbers are.
-/

namespace SymScript

namespace Fraction

/-- The number of two integers, with one more change of sign when `flip` holds. -/
def ratio (n d : Int) (flip : Bool) : ℚ := if flip then -(n / d) else n / d

theorem cast_natAbs_eq (n : Int) : (n.natAbs : ℚ) = if n < 0 then -(n : ℚ) else n := by
  rw [← Int.cast_natCast]
  split
  · rw [show (n.natAbs : ℤ) = -n by omega, Int.cast_neg]
  · rw [show (n.natAbs : ℤ) = n by omega]

/-- The signs of the integers and the flag come together in one sign. -/
theorem toRat_of_ofInts? {n d : Int} {flip : Bool} {q : Fraction} (h : ofInts? n d flip = some q) :
    q.toRat = ratio n d flip := by
  rw [ofInts?] at h
  split at h
  · cases h
  · cases h
    rw [toRat, signedNum, ratio, apply_ite (Int.cast : ℤ → ℚ), Int.cast_neg, Int.cast_natCast,
      cast_natAbs_eq, cast_natAbs_eq]
    by_cases hn : n < 0 <;> by_cases hd : d < 0 <;> cases flip <;> simp [hn, hd, neg_div, div_neg]

/-- The test for zero is right. -/
theorem isZero_eq (q : Fraction) : q.isZero = decide (q.toRat = 0) := by
  rw [Bool.eq_iff_iff, decide_eq_true_eq, toRat_eq_zero_iff, isZero, beq_iff_eq]

/-- The test for one is right. -/
theorem isOne_eq (q : Fraction) : q.isOne = decide (q.toRat = 1) := by
  have hden := q.den_cast_ne
  rw [Bool.eq_iff_iff, decide_eq_true_eq, toRat, div_eq_one_iff_eq hden, isOne]
  simp only [Bool.and_eq_true, beq_iff_eq, Bool.not_eq_true']
  have hpos := Nat.pos_of_ne_zero q.den_ne
  norm_cast
  rw [signedNum]
  cases q.negated with
  | false => simp
  | true =>
    simp only [Bool.true_eq_false, and_false, if_true, false_iff]
    omega

/-- Lowest terms tell values apart. -/
theorem reduce_eq_reduce_iff {p q : Fraction} : p.reduce = q.reduce ↔ p.toRat = q.toRat := by
  refine ⟨fun h => ?_, reduce_eq_of_toRat_eq⟩
  rw [← p.toRat_reduce, h, q.toRat_reduce]

end Fraction

namespace TermGraph

/-- The node is a number of the given value, however it is written. -/
structure IsNumber (g : TermGraph) (r : Ref) (x : ℚ) : Prop where
  size : r < g.nodes.size
  children : (g.node r).children = []
  fraction : ∃ q : Fraction, (g.node r).head = .rational q.num q.den ∧
    (g.node r).negated = q.negated ∧ q.toRat = x

variable {g h : TermGraph} {r a b : Ref} {x y : ℚ}

theorem assemble_rational {n : TermNode} {q : Fraction} (hhead : n.head = .rational q.num q.den)
    (hnegated : n.negated = q.negated) (es : List Expr) : assemble n es = .rational q := by
  cases n
  cases hhead
  cases hnegated
  exact dif_neg q.den_ne

namespace IsNumber

/-- A number stays one when nodes are added. -/
theorem of_extends (hgh : Extends g h) (hr : g.IsNumber r x) : h.IsNumber r x := by
  refine ⟨Nat.lt_of_lt_of_le hr.size hgh.size_le, ?_, ?_⟩
  · rw [hgh.node_eq r hr.size]
    exact hr.children
  · rw [hgh.node_eq r hr.size]
    exact hr.fraction

/-- A number is read as a fraction with its value. -/
theorem exists_expr (hr : g.IsNumber r x) :
    ∃ q : Fraction, (g.node r).head = .rational q.num q.den ∧ g.expr r = .ok (.rational q) ∧
      q.toRat = x := by
  obtain ⟨q, hhead, hnegated, hq⟩ := hr.fraction
  refine ⟨q, hhead, ?_, hq⟩
  rw [expr, depthBound, exprWithin, hr.children, List.mapM_nil, pure_bind,
    assemble_rational hhead hnegated]
  rfl

theorem isNumber (hr : g.IsNumber r x) : Edit.isNumber (g.node r) = true := by
  obtain ⟨q, hhead, -⟩ := hr.fraction
  rw [Edit.isNumber, TermNode.shape, hhead]
  rfl

/-- Fresh nodes for numbers are numbers. -/
theorem push {n : TermNode} {q : Fraction} (hhead : n.head = .rational q.num q.den)
    (hnegated : n.negated = q.negated) (hchildren : n.children = []) (g : TermGraph) :
    (g.push n).2.IsNumber (g.push n).1 q.toRat := by
  rw [fst_push]
  refine ⟨by simp, ?_, q, ?_⟩
  · rw [node_push_self, hchildren]
  · rw [node_push_self]
    exact ⟨hhead, hnegated, rfl⟩

/-- A fraction that is added is a number. -/
theorem add (g : TermGraph) (q : Fraction) :
    (g.add (.rational q)).2.IsNumber (g.add (.rational q)).1 q.toRat :=
  push rfl rfl rfl g

end IsNumber

namespace Edit

/-- A new node for a ratio is a number with its value. -/
theorem gives_addRational {n d : Int} (hd : d ≠ 0) (s : Bool) (g : TermGraph) :
    ∃ r h, Gives (addRational n d s) g r h ∧ Extends g h ∧ h.IsNumber r (Fraction.ratio n d s) := by
  obtain ⟨q, hq⟩ : ∃ q, Fraction.ofInts? n d s = some q := ⟨_, dif_neg hd⟩
  rw [addRational, hq, ← Fraction.toRat_of_ofInts? hq]
  refine ⟨_, _, Prod.ext rfl rfl, (Extends.refl g).push (List.forall_mem_nil _),
    .push rfl rfl rfl g⟩

/-! ### Actions on numbers -/

variable {p q : Fraction}

/-- Two numbers are combined as their fractions are. -/
theorem gives_numberOp {op : NumberOp} {o : Outcome} (hp : g.expr a = .ok (.rational p))
    (hq : g.expr b = .ok (.rational q))
    (hgives : Gives (match op with
      | .addition => giving <$> add (.rational (p + q))
      | .multiplication => giving <$> add (.rational (p * q))
      | .power => addPowerOf p q) g o h) : Gives (applyTo a (.number op) [.term b]) g o h :=
  gives_bind.2 ⟨_, _, gives_node.2 ⟨rfl, rfl⟩, gives_bind.2 ⟨_, _, gives_expr.2 ⟨hp, rfl⟩,
    gives_bind.2 ⟨_, _, gives_expr.2 ⟨hq, rfl⟩, hgives⟩⟩⟩

theorem gives_giving_add (e : Expr) (g : TermGraph) :
    Gives (giving <$> add e) g (giving (g.add e).1) (g.add e).2 :=
  gives_map.2 ⟨_, gives_add.2 ⟨rfl, rfl⟩, rfl⟩

/-- A test of a number reads its fraction and changes nothing. -/
theorem gives_test (test : Fraction → Bool) (ha : Edit.isNumber (g.node a) = true)
    (hp : g.expr a = .ok (.rational p)) :
    Gives (do
      let n ← node a
      if Edit.isNumber n then return yes ((← expr a).rational?.any test) else throw .noOperation) g
        (yes (test p)) g := by
  refine gives_bind.2 ⟨_, _, gives_node.2 ⟨rfl, rfl⟩, ?_⟩
  rw [if_pos ha]
  exact gives_bind.2 ⟨_, _, gives_expr.2 ⟨hp, rfl⟩, gives_pure.2 ⟨rfl, rfl⟩⟩

/-- Simplifying a number gives a new one in lowest terms. -/
theorem gives_simplify (hhead : (g.node a).head = .rational p.num p.den)
    (hp : g.expr a = .ok (.rational p)) :
    Gives (applyTo a .simplify []) g (giving (g.add (.rational p.reduce)).1)
      (g.add (.rational p.reduce)).2 := by
  have hvisit : Gives (simplifyWithin (g.nodes.size + 1) a) g (g.add (.rational p.reduce)).1
      (g.add (.rational p.reduce)).2 := by
    refine gives_bind.2 ⟨_, _, gives_node.2 ⟨rfl, rfl⟩, ?_⟩
    rw [hhead]
    exact gives_bind.2 ⟨_, _, gives_expr.2 ⟨hp, rfl⟩, gives_addResult.2 ⟨_, rfl, rfl, rfl⟩⟩
  exact gives_bind.2 ⟨_, _, gives_node.2 ⟨rfl, rfl⟩,
    gives_map.2 ⟨_, gives_bind.2 ⟨_, _, gives_get.2 ⟨rfl, rfl⟩, hvisit⟩, rfl⟩⟩

/-- Nodes of fractions are equal exactly if the fractions are: a name tells the sign, the numerator
and the denominator. -/
theorem eq_rational_iff (ha : Holds g a (.rational p)) (hb : Holds g b (.rational q)) :
    g.eq a b = decide (p = q) := by
  rw [Bool.eq_iff_iff, decide_eq_true_eq]
  constructor
  · intro heq
    have hname := (alike_of_eq heq).name
    cases ha with
    | intro _ _ _ hp _ =>
      cases hb with
      | intro _ _ _ hq _ =>
        rw [hp, hq] at hname
        exact Fraction.name_injective hname
  · rintro rfl
    exact ha.eqWithin hb (Nat.succ_le_succ (Nat.zero_le _))

/-- Simplified one after the other, two numbers give equal nodes exactly if their values are
equal. -/
theorem gives_eq_of_simplify (ha : g.IsNumber a x) (hb : g.IsNumber b y) :
    ∃ c h p, Gives (applyTo a .simplify []) g (giving c) h ∧ h.Holds c (.rational p) ∧ p.toRat = x ∧
      p.reduce = p ∧ ∃ d k, Gives (applyTo b .simplify []) h (giving d) k ∧
        Gives (applyTo c .eq [.term d]) k (yes (decide (x = y))) k := by
  have hextends (g : TermGraph) (e : Expr) : Extends g (g.add e).2 := (addBelow_extends none e g).1
  obtain ⟨p, hhead, hp, rfl⟩ := ha.exists_expr
  refine ⟨_, _, p.reduce, gives_simplify hhead hp, holds_add (.refl _), p.toRat_reduce,
    p.reduce_reduce, ?_⟩
  obtain ⟨q, hhead', hq, rfl⟩ := (hb.of_extends (hextends g (.rational p.reduce))).exists_expr
  refine ⟨_, _, gives_simplify hhead' hq, ?_⟩
  have hfirst := holds_add (g := g) (e := .rational p.reduce) (hextends _ (.rational q.reduce))
  have hsecond :=
    holds_add (g := (g.add (.rational p.reduce)).2) (e := .rational q.reduce) (.refl _)
  have heq := eq_rational_iff hfirst hsecond
  rw [decide_eq_decide.2 Fraction.reduce_eq_reduce_iff] at heq
  rw [← heq]
  exact gives_bind.2 ⟨_, _, gives_node.2 ⟨rfl, rfl⟩,
    gives_map.2 ⟨_, gives_bind.2 ⟨_, _, gives_get.2 ⟨rfl, rfl⟩, gives_pure.2 ⟨rfl, rfl⟩⟩, rfl⟩⟩

/-- The number of any two integers can be made unless the second is zero.  Whatever their spelling,
sums and products of numbers are exact, zero and one are told by their values, simplifying gives
lowest terms with a zero that is not negated, and simplified numbers are equal exactly if their
values are. -/
theorem numbers_exact (g : TermGraph) :
    (∀ (n d : Int) (s : Bool), d ≠ 0 → ∃ r h, Gives (addRational n d s) g r h ∧ Extends g h ∧
      h.IsNumber r (Fraction.ratio n d s)) ∧
    ∀ {a b : Ref} {x y : ℚ}, g.IsNumber a x → g.IsNumber b y →
      (∃ c h, Gives (applyTo a (.number .addition) [.term b]) g (giving c) h ∧
        h.IsNumber c (x + y)) ∧
      (∃ c h, Gives (applyTo a (.number .multiplication) [.term b]) g (giving c) h ∧
        h.IsNumber c (x * y)) ∧
      Gives (applyTo a .isZero []) g (yes (decide (x = 0))) g ∧
      Gives (applyTo a .isOne []) g (yes (decide (x = 1))) g ∧
      ∃ c h p, Gives (applyTo a .simplify []) g (giving c) h ∧ h.Holds c (.rational p) ∧
        p.toRat = x ∧ Nat.Coprime p.num p.den ∧ 0 < p.den ∧ (x = 0 → p.negated = false) ∧
        ∃ d k, Gives (applyTo b .simplify []) h (giving d) k ∧
          Gives (applyTo c .eq [.term d]) k (yes (decide (x = y))) k := by
  refine ⟨fun n d s hd => gives_addRational hd s g, fun {a b x y} ha hb => ?_⟩
  obtain ⟨c, h, r, hsimplify, hholds, hvalue, hreduce, hequal⟩ := gives_eq_of_simplify ha hb
  obtain ⟨hcoprime, hzero⟩ := Fraction.reduce_eq_self_iff.1 hreduce
  obtain ⟨p, -, hp, rfl⟩ := ha.exists_expr
  obtain ⟨q, -, hq, rfl⟩ := hb.exists_expr
  refine ⟨⟨_, _, gives_numberOp hp hq (gives_giving_add _ g), ?_⟩,
    ⟨_, _, gives_numberOp hp hq (gives_giving_add _ g), ?_⟩, ?_, ?_,
    c, h, r, hsimplify, hholds, hvalue, hcoprime, Nat.pos_of_ne_zero r.den_ne,
    fun hx => hzero ?_, hequal⟩
  · rw [← Fraction.toRat_add]
    exact .add g (p + q)
  · rw [← Fraction.toRat_mul]
    exact .add g (p * q)
  · rw [← Fraction.isZero_eq]
    exact gives_test Fraction.isZero ha.isNumber hp
  · rw [← Fraction.isOne_eq]
    exact gives_test Fraction.isOne ha.isNumber hp
  · exact Fraction.toRat_eq_zero_iff.1 (hvalue.trans hx)

/-- Three halves, spelled in two ways. -/
theorem numbers_exact_threeHalves : ∃ a g b h, Gives (addRational 6 (-4) true) {} a g ∧
    Gives (addRational (-3) (-2) false) g b h ∧
    (∃ c k, Gives (applyTo a (.number .addition) [.term b]) h (giving c) k ∧ k.IsNumber c 3) ∧
    ∃ c k d l, Gives (applyTo a .simplify []) h (giving c) k ∧
      Gives (applyTo b .simplify []) k (giving d) l ∧
      Gives (applyTo c .eq [.term d]) l (yes true) l := by
  obtain ⟨a, g, ha, -, hx⟩ := (numbers_exact {}).1 6 (-4) true (by decide)
  obtain ⟨b, h, hb, hgh, hy⟩ := (numbers_exact g).1 (-3) (-2) false (by decide)
  have hvalue : Fraction.ratio 6 (-4) true = Fraction.ratio (-3) (-2) false := by decide +kernel
  have hsum : Fraction.ratio 6 (-4) true + Fraction.ratio (-3) (-2) false = 3 := by decide +kernel
  obtain ⟨⟨c, k, hadd, hc⟩, -, -, -, d, l, -, hd, -, -, -, -, -, e, m, he, heq⟩ :=
    (numbers_exact h).2 (hx.of_extends hgh) hy
  rw [hsum] at hc
  rw [decide_eq_true hvalue] at heq
  exact ⟨a, g, b, h, ha, hb, ⟨c, k, hadd, hc⟩, d, l, e, m, hd, he, heq⟩

end Edit

end TermGraph

end SymScript
