import SymScript.Proofs.Normalization

/-!
# What simplified expressions look like

The shape of a result, told node by node and without the rules that lead to it, and what a second
simplification does to a result: nothing.  Both hold of expressions in which no base of a power
comes to a number, since a power of two numbers is worked out in floating point.
-/

namespace SymScript.Expr

/-! ### Nodes -/

mutual

/-- The nodes of an expression, each before its children. -/
def nodes : Expr → List Expr
  | rational q => [rational q]
  | symbol s c => [symbol s c]
  | sum s es => sum s es :: nodesAll es
  | product s es => product s es :: nodesAll es
  | power s b x => power s b x :: (nodes b ++ nodes x)

def nodesAll : List Expr → List Expr
  | [] => []
  | e :: es => nodes e ++ nodesAll es

end

/-- Induction on expressions, with a hypothesis for every child. -/
@[elab_as_elim]
theorem children_induction {P : Expr → Prop} (rational : ∀ q, P (.rational q))
    (symbol : ∀ s c, P (.symbol s c)) (sum : ∀ s es, (∀ e ∈ es, P e) → P (.sum s es))
    (product : ∀ s es, (∀ e ∈ es, P e) → P (.product s es))
    (power : ∀ s b x, P b → P x → P (.power s b x)) (e : Expr) : P e :=
  @Expr.rec P (fun es => ∀ e ∈ es, P e) rational symbol sum product power (List.forall_mem_nil P)
    (fun _ _ he hes => List.forall_mem_cons.2 ⟨he, hes⟩) e

/-- All nodes of the expression satisfy `P`. -/
def Everywhere (P : Expr → Prop) (e : Expr) : Prop := ∀ n ∈ e.nodes, P n

instance {P : Expr → Prop} [DecidablePred P] : DecidablePred (Everywhere P) := fun e =>
  inferInstanceAs (Decidable (∀ n ∈ e.nodes, P n))

section Everywhere

variable {P : Expr → Prop} {s : Bool} {es : List Expr}

/-- The nodes of a list are those of its members. -/
theorem forall_mem_nodesAll : (∀ n ∈ nodesAll es, P n) ↔ ∀ e ∈ es, Everywhere P e := by
  induction es with
  | nil => simp [nodesAll]
  | cons e es ih => rw [nodesAll, List.forall_mem_append, ih, List.forall_mem_cons, Everywhere]

/-- The nodes of a sum are the sum and those of its addends. -/
theorem everywhere_sum_iff :
    Everywhere P (sum s es) ↔ P (sum s es) ∧ ∀ e ∈ es, Everywhere P e := by
  rw [Everywhere, nodes, List.forall_mem_cons, forall_mem_nodesAll]

/-- The nodes of a product are the product and those of its factors. -/
theorem everywhere_product_iff :
    Everywhere P (product s es) ↔ P (product s es) ∧ ∀ e ∈ es, Everywhere P e := by
  rw [Everywhere, nodes, List.forall_mem_cons, forall_mem_nodesAll]

/-- The nodes of a power are the power and those of its parts. -/
theorem everywhere_power_iff {b x : Expr} :
    Everywhere P (power s b x) ↔ P (power s b x) ∧ Everywhere P b ∧ Everywhere P x := by
  rw [Everywhere, nodes, List.forall_mem_cons, List.forall_mem_append, Everywhere, Everywhere]

theorem everywhere_rational_iff {q : Fraction} : Everywhere P (rational q) ↔ P (rational q) := by
  rw [Everywhere, nodes, List.forall_mem_singleton]

theorem everywhere_symbol_iff {c : Char} : Everywhere P (symbol s c) ↔ P (symbol s c) := by
  rw [Everywhere, nodes, List.forall_mem_singleton]

theorem Everywhere.self {e : Expr} (h : Everywhere P e) : P e := by
  refine h e ?_
  cases e <;> simp [nodes]

/-- A sign changes the node at the top only. -/
theorem Everywhere.sign {e : Expr} (h : Everywhere P e) (hs : P (e.sign s)) :
    Everywhere P (e.sign s) := by
  cases e with
  | rational => exact everywhere_rational_iff.2 hs
  | symbol => exact everywhere_symbol_iff.2 hs
  | sum => exact everywhere_sum_iff.2 ⟨hs, (everywhere_sum_iff.1 h).2⟩
  | product => exact everywhere_product_iff.2 ⟨hs, (everywhere_product_iff.1 h).2⟩
  | power => exact everywhere_power_iff.2 ⟨hs, (everywhere_power_iff.1 h).2⟩

end Everywhere

/-- No base of a power in the expression simplifies to a number. -/
def WithoutNumberBases (e : Expr) : Prop :=
  ∀ s b x, power s b x ∈ e.nodes → ∀ q, simplify b ≠ .ok (rational q)

/-- A result within some depth is the result. -/
theorem simplify_eq_of_simplifyWithin {n : Nat} {e r : Expr} (hr : simplifyWithin n e = .ok r) :
    simplify e = .ok r := by
  rw [simplify, simplifyWithin_eq_of_ne (simplify_lightens e).ends (m := n) (by simp [hr]), hr]

mutual

/-- The condition on the nodes gives the one on the tree. -/
theorem WithoutNumberBases.algebraic : ∀ {e : Expr}, WithoutNumberBases e → Algebraic e
  | rational _, _ => trivial
  | symbol .., _ => trivial
  | sum s es, h | product s es, h => by
    rw [Algebraic]
    refine algebraicAll_of_nodesAll fun t b x hm => h t b x ?_
    rw [nodes]
    exact List.mem_cons_of_mem _ hm
  | power s b x, h => by
    rw [Algebraic]
    refine ⟨WithoutNumberBases.algebraic fun t b' x' hm => h t b' x' ?_,
      WithoutNumberBases.algebraic fun t b' x' hm => h t b' x' ?_,
      fun n q hq => h s b x ?_ q (simplify_eq_of_simplifyWithin hq)⟩ <;> rw [nodes]
    · exact List.mem_cons_of_mem _ (List.mem_append_left _ hm)
    · exact List.mem_cons_of_mem _ (List.mem_append_right _ hm)
    · exact List.mem_cons_self

theorem algebraicAll_of_nodesAll : ∀ {es : List Expr},
    (∀ s b x, power s b x ∈ nodesAll es → ∀ q, simplify b ≠ .ok (rational q)) → AlgebraicAll es
  | [], _ => trivial
  | e :: es, h => by
    rw [AlgebraicAll]
    refine ⟨WithoutNumberBases.algebraic fun t b x hm => h t b x ?_,
      algebraicAll_of_nodesAll fun t b x hm => h t b x ?_⟩ <;> rw [nodesAll]
    · exact List.mem_append_left _ hm
    · exact List.mem_append_right _ hm

end

/-! ### Shapes -/

/-- An addend without its sign and without a number that leads its factors. -/
def stripped : Expr → Expr
  | product _ (rational _ :: [f]) => f
  | product _ (rational _ :: fs) => product false fs
  | e => e.sign false

/-- What a node of a simplified expression looks like. -/
def InShape : Expr → Prop
  | rational q => 0 < q.den ∧ Nat.Coprime q.num q.den ∧ (q.num = 0 → q.negated = false)
  | symbol .. => True
  | sum _ es =>
    2 ≤ es.length ∧ (∀ e ∈ es, e.shape ≠ .sum) ∧
      (numbers es).length ≤ 1 ∧ (∀ q ∈ numbers es, q.toRat ≠ 0) ∧
      (others es).Pairwise fun a b => a.stripped ≠ b.stripped
  | product _ es =>
    2 ≤ es.length ∧ (∀ e ∈ es, e.negated = false) ∧ (∀ e ∈ es, e.shape ≠ .product) ∧
      (numbers es).length ≤ 1 ∧ (∀ q ∈ numbers es, q.toRat ≠ 0 ∧ q.toRat ≠ 1) ∧
      (others es).Pairwise fun a b => a.base ≠ b.base
  | power _ b x =>
    b.negated = false ∧ b.shape ≠ .power ∧
      ∀ q, x = rational q → q.toRat ≠ 0 ∧ q.toRat ≠ 1

theorem toRat_ne_zero {q : Fraction} (h : q.isZero = false) : q.toRat ≠ 0 := by
  rw [Ne, Fraction.toRat_eq_zero_iff]
  simpa [Fraction.isZero] using h

/-- Of the numbers in lowest terms only one is one. -/
theorem toRat_ne_one {q : Fraction} (hq : q.reduce = q) (h : q.isOne = false) : q.toRat ≠ 1 := by
  intro hone
  have heq : q = .ofNat 1 := by
    refine Fraction.eq_of_toRat_eq hq rfl ?_
    rw [hone, Fraction.toRat_ofNat, Nat.cast_one]
  rw [heq] at h
  cases h

/-- The factor by which addends are collected is the addend without sign and coefficient. -/
theorem Shaped.stripped_eq {number : Fraction → Prop} {raise : Expr → Expr → Prop} {t : Expr}
    (h : Shaped number raise t) : t.stripped = t.term.1 := by
  cases t with
  | product s fs =>
    obtain hfs | ⟨q, gs, rfl, -⟩ := h.numbers_cases
    · rw [h.term_of_numbers_nil hfs]
      match fs with
      | rational _ :: _ => cases hfs
      | [] | symbol .. :: _ | sum .. :: _ | product .. :: _ | power .. :: _ => rfl
    · rw [h.term_of_rational]
      match gs with
      | [] | [_] | _ :: _ :: _ => rfl
  | _ => exact (h.withSign_eq false).symm

/-- Normal forms are in shape. -/
theorem Normal.inShape {e : Expr} (h : Normal e) : e.InShape := by
  cases e with
  | rational q =>
    obtain ⟨hcoprime, hzero⟩ := Fraction.reduce_eq_self_iff.1 h
    exact ⟨Nat.pos_of_ne_zero q.den_ne, hcoprime, hzero⟩
  | symbol => trivial
  | sum s es =>
    obtain ⟨hes, hl, -, hf⟩ := normal_sum_iff.1 h
    refine ⟨hl, hf.noSum, hf.oneNumber, fun q hq => toRat_ne_zero (hf.noZero q hq), ?_⟩
    refine (List.pairwise_map.1 hf.distinct).imp_of_mem fun ha hb hne => ?_
    rwa [(hes _ (mem_others.1 ha).1).shaped.stripped_eq,
      (hes _ (mem_others.1 hb).1).shaped.stripped_eq]
  | product s es =>
    obtain ⟨hes, hl, -, hf⟩ := normal_product_iff.1 h
    refine ⟨hl, hf.unsigned, hf.noProduct, hf.oneNumber, fun q hq => ?_,
      List.pairwise_map.1 hf.distinct⟩
    obtain ⟨hz, ho⟩ := hf.noUnit q hq
    exact ⟨toRat_ne_zero hz, toRat_ne_one (hes _ (mem_numbers.1 hq)) ho⟩
  | power s b x =>
    obtain ⟨-, hx, hf⟩ := normal_power_iff.1 h
    refine ⟨hf.unsigned, hf.noPower, ?_⟩
    rintro q rfl
    obtain ⟨hz, ho⟩ := hf.noUnit q rfl
    exact ⟨toRat_ne_zero hz, toRat_ne_one hx ho⟩

mutual

/-- Every node of a normal expression is normal. -/
theorem Normal.of_mem_nodes : ∀ {e : Expr}, Normal e → ∀ n ∈ e.nodes, Normal n
  | rational q, h => by
    rw [nodes]
    exact List.forall_mem_singleton.2 h
  | symbol s c, h => by
    rw [nodes]
    exact List.forall_mem_singleton.2 h
  | sum s es, h | product s es, h => by
    rw [nodes]
    refine List.forall_mem_cons.2 ⟨h, ?_⟩
    rw [Normal] at h
    exact NormalAll.of_mem_nodesAll h.1
  | power s b x, h => by
    rw [nodes]
    refine List.forall_mem_cons.2 ⟨h, ?_⟩
    rw [Normal] at h
    exact List.forall_mem_append.2 ⟨Normal.of_mem_nodes h.1, Normal.of_mem_nodes h.2.1⟩

theorem NormalAll.of_mem_nodesAll : ∀ {es : List Expr}, NormalAll es → ∀ n ∈ nodesAll es, Normal n
  | [], _ => by
    rw [nodesAll]
    exact List.forall_mem_nil _
  | e :: es, h => by
    rw [NormalAll] at h
    rw [nodesAll]
    exact List.forall_mem_append.2 ⟨Normal.of_mem_nodes h.1, NormalAll.of_mem_nodesAll h.2⟩

end

/-! ### Results -/

/-- In a result numbers are in lowest terms, sums and products have nothing left to collect, and no
rule applies to a power: this holds of all nodes, at every depth and in exponents too. -/
theorem simplify_inShape {e r : Expr} (he : e.WithoutNumberBases) (hr : simplify e = .ok r) :
    ∀ n ∈ r.nodes, n.InShape := by
  intro n hn
  have hnormal : Normal r := he.algebraic.normal_of_simplifyWithin hr
  exact (hnormal.of_mem_nodes n hn).inShape

/-- Equal addends, a fraction to cancel, a power of a power and a base that occurs twice. -/
theorem simplify_inShape_mixed :
    let x := symbol false 'x'
    let y := symbol false 'y'
    let half := rational { negated := false, num := 2, den := 4 }
    let e := product true [sum true [x, symbol true 'y', x], half,
      power false (power false x (.ofNat 3)) (sum false [y, half, y]), x]
    let r := product false [rational { negated := false, num := 1, den := 2 },
      power false x (sum false [.ofNat 1, product false [.ofNat 3,
        sum false [rational { negated := false, num := 1, den := 2 },
          product false [.ofNat 2, y]]]]),
      sum false [product false [.ofNat 2, x], symbol true 'y']]
    e.WithoutNumberBases ∧ simplify e = .ok r ∧ ∀ n ∈ r.nodes, n.InShape := by
  intro x y half e r
  have he : e.WithoutNumberBases := by
    intro s b z hm q hq
    simp only [e, half, x, y, nodes, nodesAll, Expr.ofNat, List.cons_append, List.nil_append,
      List.append_nil, List.mem_cons, List.not_mem_nil, or_false, reduceCtorEq, false_or,
      power.injEq] at hm
    rcases hm with ⟨-, rfl, -⟩ | ⟨-, rfl, -⟩
    · cases hq
    · cases hq
  have hr : simplify e = .ok r := by with_unfolding_all rfl
  exact ⟨he, hr, simplify_inShape he hr⟩

/-- Simplifying a copy of a result gives the result again, with all signs and the order of
children. -/
theorem simplify_copy_of_simplify {e r : Expr} (he : e.WithoutNumberBases)
    (hr : simplify e = .ok r) : simplify r.copy = .ok r := by
  have hnormal : Normal r := he.algebraic.normal_of_simplifyWithin hr
  have hbound := mass_lt_simplifyBound r
  rw [hnormal.copy_eq]
  exact hnormal.stable.simplifyWithin_eq (by omega)

/-- Two powers that the order does not tell apart: their exponents differ in a sign only. -/
theorem simplify_copy_of_simplify_untold :
    let x := symbol false 'x'
    let y := symbol false 'y'
    let z := symbol false 'z'
    let up := power false x (product false [y, z])
    let down := power false x (product true [y, z])
    let e := sum true [down, up, power true x (product false [z, y]), .ofNat 0, up]
    let r := sum true [down, up]
    lt up down = false ∧ lt down up = false ∧ e.WithoutNumberBases ∧ simplify e = .ok r ∧
      simplify r.copy = .ok r := by
  intro x y z up down e r
  have he : e.WithoutNumberBases := by
    intro s b w hm q hq
    simp only [e, up, down, x, y, z, nodes, nodesAll, Expr.ofNat, List.cons_append, List.nil_append,
      List.append_nil, List.mem_cons, List.not_mem_nil, or_false, reduceCtorEq, false_or,
      power.injEq] at hm
    obtain rfl : b = symbol false 'x' := by tauto
    cases hq
  have hr : simplify e = .ok r := by with_unfolding_all rfl
  exact ⟨rfl, rfl, he, hr, simplify_copy_of_simplify he hr⟩

end SymScript.Expr
