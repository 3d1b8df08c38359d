import SymScript.Proofs.ExpansionEnds
import SymScript.Proofs.Laurent
import SymScript.Proofs.Powers

/-!
# Expansion of polynomials

A polynomial is written with sums and products of two members or more, and with whole exponents from
two on.  Expanding one never fails.  A step leaves no powers, and what its result looks like can be
told from the polynomial: whether it is a sum (`spreads`), and whether it is negated.
-/

namespace SymScript.Expr

/-! ### Nodes of copies -/

section Nodes

variable {P : Expr → Prop} (hcopy : ∀ e, P (copy e) ↔ P e)

include hcopy

/-- A property that copying does not touch holds in a copy where it does in the original. -/
theorem everywhere_copy_iff (e : Expr) : Everywhere P (copy e) ↔ Everywhere P e := by
  induction e using children_induction with
  | rational | symbol => exact Iff.rfl
  | sum s es ih =>
    rw [copy, everywhere_sum_iff, everywhere_sum_iff, forall_mem_sort_copyAll]
    exact and_congr (hcopy (sum s es)) (forall₂_congr ih)
  | product s es ih =>
    rw [copy, everywhere_product_iff, everywhere_product_iff, forall_mem_sort_copyAll]
    exact and_congr (hcopy (product s es)) (forall₂_congr ih)
  | power s b x hb hx =>
    rw [copy, everywhere_power_iff, everywhere_power_iff, hb, hx]
    exact and_congr_left' (hcopy (power s b x))

/-- The nodes of a sum are the sum and those of its addends. -/
theorem everywhere_mkSum_iff {s : Bool} {es : List Expr} :
    Everywhere P (mkSum s es) ↔ P (sum s es) ∧ ∀ e ∈ es, Everywhere P e :=
  (everywhere_copy_iff hcopy (sum s es)).trans everywhere_sum_iff

/-- The nodes of a product are the product and those of its factors. -/
theorem everywhere_mkProduct_iff {s : Bool} {es : List Expr} :
    Everywhere P (mkProduct s es) ↔ P (product s es) ∧ ∀ e ∈ es, Everywhere P e :=
  (everywhere_copy_iff hcopy (product s es)).trans everywhere_product_iff

/-- A sign changes the node at the top only. -/
theorem Everywhere.withSign {e : Expr} {s : Bool} (h : Everywhere P e) (hs : P (e.sign s)) :
    Everywhere P (e.withSign s) := by
  refine Everywhere.sign ((everywhere_copy_iff hcopy e).2 h) ?_
  rw [← copy_sign]
  exact (hcopy _).2 hs

end Nodes

/-- The nodes of an addend are nodes of the expression. -/
theorem Everywhere.of_mem_addends {P : Expr → Prop} {e x : Expr} (h : Everywhere P e)
    (hx : x ∈ e.addends) : Everywhere P x := by
  cases e with
  | sum s es => exact (everywhere_sum_iff.1 h).2 x hx
  | _ => exact List.mem_singleton.1 hx ▸ h

/-- The nodes of an expression are those of its addends, and the sum that they are in. -/
theorem everywhere_of_addends {P : Expr → Prop} {e : Expr} (h : ∀ x ∈ e.addends, Everywhere P x)
    (hsum : e.shape = .sum → P e) : Everywhere P e := by
  cases e with
  | sum s es => exact everywhere_sum_iff.2 ⟨hsum rfl, h⟩
  | _ => exact h _ (List.mem_singleton_self _)

/-! ### Polynomials -/

/-- A node of a polynomial. -/
def PolynomialNode : Expr → Prop
  | sum _ es | product _ es => 2 ≤ es.length
  | power _ _ (rational q) => 2 ≤ q.num ∧ q.den = 1 ∧ q.negated = false
  | power .. => False
  | _ => True

instance : DecidablePred PolynomialNode
  | sum _ es | product _ es => inferInstanceAs (Decidable (2 ≤ es.length))
  | power _ _ (rational q) =>
    inferInstanceAs (Decidable (2 ≤ q.num ∧ q.den = 1 ∧ q.negated = false))
  | power _ _ (symbol ..) | power _ _ (sum ..) | power _ _ (product ..) | power _ _ (power ..) =>
    inferInstanceAs (Decidable False)
  | rational _ | symbol .. => inferInstanceAs (Decidable True)

theorem polynomialNode_copy (e : Expr) : PolynomialNode (copy e) ↔ PolynomialNode e := by
  cases e with
  | rational | symbol => exact Iff.rfl
  | sum | product => simp [copy, PolynomialNode]
  | power s b x => cases x <;> exact Iff.rfl

theorem polynomialNode_sign {e : Expr} (h : PolynomialNode e) (s : Bool) :
    PolynomialNode (e.sign s) := by
  cases e with
  | power t b x => cases x <;> exact h
  | _ => exact h

theorem shape_copy (e : Expr) : (copy e).shape = e.shape := by
  cases e <;> rfl

/-- A node of a polynomial that is written without powers. -/
def FreeNode (e : Expr) : Prop := PolynomialNode e ∧ e.shape ≠ .power

theorem freeNode_copy (e : Expr) : FreeNode (copy e) ↔ FreeNode e := by
  rw [FreeNode, polynomialNode_copy, shape_copy, FreeNode]

theorem freeNode_sign {e : Expr} (h : FreeNode e) (s : Bool) : FreeNode (e.sign s) :=
  ⟨polynomialNode_sign h.1 s, sign_shape s e ▸ h.2⟩

theorem Everywhere.free_withSign {e : Expr} (h : Everywhere FreeNode e) (s : Bool) :
    Everywhere FreeNode (e.withSign s) :=
  h.withSign freeNode_copy (freeNode_sign h.self s)

/-- What is multiplied out is a polynomial. -/
theorem Everywhere.polynomial {e : Expr} (h : Everywhere FreeNode e) :
    Everywhere PolynomialNode e :=
  fun n hn => (h n hn).1

/-- An expression without sums. -/
def SumFree (e : Expr) : Prop := e.Everywhere fun n => n.shape ≠ .sum

instance : DecidablePred SumFree := fun e =>
  inferInstanceAs (Decidable (e.Everywhere fun n => n.shape ≠ .sum))

theorem shape_copy_ne_sum (e : Expr) : (copy e).shape ≠ .sum ↔ e.shape ≠ .sum := by
  rw [shape_copy]

/-- A copy is free of sums if the original is. -/
theorem sumFree_copy (e : Expr) : SumFree (copy e) ↔ SumFree e :=
  everywhere_copy_iff shape_copy_ne_sum e

/-- A sign brings no sum. -/
theorem SumFree.withSign {e : Expr} (h : SumFree e) (s : Bool) : SumFree (e.withSign s) :=
  Everywhere.withSign shape_copy_ne_sum h ((sign_shape s e).symm ▸ h.self)

/-- A product of factors without sums has no sum. -/
theorem sumFree_mkProduct {s : Bool} {es : List Expr} (h : ∀ e ∈ es, SumFree e) :
    SumFree (mkProduct s es) :=
  (everywhere_mkProduct_iff shape_copy_ne_sum).2 ⟨by rintro ⟨⟩, h⟩

/-! ### What becomes a sum -/

mutual

/-- The expression is a sum, or a product that is distributed over one. -/
def spreads : Expr → Bool
  | sum .. => true
  | product _ es => spreadsAny es
  | _ => false

def spreadsAny : List Expr → Bool
  | [] => false
  | e :: es => spreads e || spreadsAny es

end

/-- A product becomes a sum if one of its factors does. -/
theorem spreads_product_iff {s : Bool} {es : List Expr} :
    spreads (product s es) = true ↔ ∃ e ∈ es, spreads e = true := by
  rw [spreads]
  induction es with
  | nil => simp [spreadsAny]
  | cons e es ih => rw [spreadsAny, Bool.or_eq_true, ih, List.exists_mem_cons_iff]

/-- Without powers, every sum is reached by distribution. -/
theorem spreads_of_not_sumFree {e : Expr} (hfree : Everywhere FreeNode e) (h : ¬ SumFree e) :
    spreads e = true := by
  induction e using children_induction with
  | rational q => exact absurd (everywhere_rational_iff.2 (by rintro ⟨⟩)) h
  | symbol s c => exact absurd (everywhere_symbol_iff.2 (by rintro ⟨⟩)) h
  | sum s es => rfl
  | product s es ih =>
    obtain ⟨-, hes⟩ := everywhere_product_iff.1 hfree
    have hmember : ∃ e ∈ es, ¬ SumFree e := by
      by_contra hall
      push Not at hall
      exact h (everywhere_product_iff.2 ⟨by rintro ⟨⟩, hall⟩)
    obtain ⟨e, he, hsum⟩ := hmember
    exact spreads_product_iff.2 ⟨e, he, ih e he (hes e he) hsum⟩
  | power s b x => exact absurd rfl hfree.self.2

/-! ### Distributed products -/

/-- A polynomial has an addend, and more than one just if it is a sum. -/
theorem length_addends {e : Expr} (h : PolynomialNode e) :
    1 ≤ e.addends.length ∧ (e.shape = .sum ↔ e.addends.length ≠ 1) := by
  cases e with
  | sum s es =>
    have hlength : 2 ≤ es.length := h
    exact ⟨by rw [addends]; omega, by rw [addends]; simp [shape]; omega⟩
  | _ => simp [addends, shape]

section Distribute

variable {a b : Expr} (ha : Everywhere FreeNode a) (hb : Everywhere FreeNode b)

include ha hb

/-- Distributing two factors gives a sum just if one of them is a sum. -/
theorem shape_distribute_iff : (distribute a b).shape = .sum ↔ a.shape = .sum ∨ b.shape = .sum := by
  rw [shape_distribute, (length_addends ha.self.1).2, (length_addends hb.self.1).2, Ne, mul_eq_one]
  tauto

/-- Distributing factors that are multiplied out gives something that is. -/
theorem everywhere_free_distribute : Everywhere FreeNode (distribute a b) := by
  refine everywhere_of_addends (forall_mem_addends_distribute fun x hx y hy => ?_) fun hsum => ?_
  · refine (everywhere_mkProduct_iff freeNode_copy).2 ⟨⟨le_rfl, by rintro ⟨⟩⟩, ?_⟩
    exact forall_mem_pair.2 ⟨ha.of_mem_addends hx, hb.of_mem_addends hy⟩
  · have hlength := length_addends_distribute a b
    have hne := (shape_distribute a b).1 hsum
    have hpos : 1 ≤ a.addends.length * b.addends.length :=
      Nat.mul_pos (length_addends ha.self.1).1 (length_addends hb.self.1).1
    obtain ⟨s, hr⟩ := eq_sum_of_shape hsum
    rw [hr]
    refine ⟨?_, by rintro ⟨⟩⟩
    change 2 ≤ (distribute a b).addends.length
    omega

end Distribute

/-- What a fold of distributions keeps, and where it gives a sum. -/
theorem free_distributeAll {cs : List Expr} (h : ∀ c ∈ cs, Everywhere FreeNode c) :
    Everywhere FreeNode (distributeAll cs) ∧
      ((distributeAll cs).shape = .sum ↔ ∃ c ∈ cs, c.shape = .sum) := by
  cases cs with
  | nil =>
    exact ⟨everywhere_rational_iff.2 ⟨trivial, by rintro ⟨⟩⟩, by simp [distributeAll, ofNat, shape]⟩
  | cons a cs =>
    obtain ⟨ha, hcs⟩ := List.forall_mem_cons.1 h
    rw [List.exists_mem_cons_iff]
    change Everywhere FreeNode (cs.foldl distribute a) ∧ ((cs.foldl distribute a).shape = .sum ↔ _)
    clear h
    induction cs generalizing a with
    | nil => exact ⟨ha, by simp⟩
    | cons b cs ih =>
      obtain ⟨hb, hcs⟩ := List.forall_mem_cons.1 hcs
      obtain ⟨hfree, hshape⟩ := ih _ (everywhere_free_distribute ha hb) hcs
      refine ⟨hfree, ?_⟩
      rw [List.foldl_cons, hshape, shape_distribute_iff ha hb, List.exists_mem_cons_iff, or_assoc]

/-- A distributed product has no sign: it is left to the product that is expanded. -/
theorem negated_distributeAll {cs : List Expr} (h : 2 ≤ cs.length) :
    (distributeAll cs).negated = false := by
  have hfold (a : Expr) (ha : a.negated = false) (cs : List Expr) :
      (cs.foldl distribute a).negated = false := by
    induction cs generalizing a with
    | nil => exact ha
    | cons b cs ih => exact ih _ (negated_distribute a b)
  obtain ⟨a, b, cs, rfl⟩ : ∃ a b t, cs = a :: b :: t := by
    cases cs with
    | nil => cases h
    | cons a cs =>
      cases cs with
      | nil => simp at h
      | cons b cs => exact ⟨a, b, cs, rfl⟩
  exact hfold _ (negated_distribute a b) cs

/-- Distributing factors without sums gives no sum. -/
theorem sumFree_distributeAll {cs : List Expr} (h : ∀ c ∈ cs, SumFree c) :
    SumFree (distributeAll cs) := by
  refine everywhere_of_addends (forall_mem_addends_distributeAll ?_ (fun x y hx hy => ?_) ?_)
    fun hsum => ?_
  · exact everywhere_rational_iff.2 (by rintro ⟨⟩)
  · exact sumFree_mkProduct (forall_mem_pair.2 ⟨hx, hy⟩)
  · exact fun c hc x hx => (h c hc).of_mem_addends hx
  · exact absurd hsum (shape_distributeAll_ne fun c hc => (h c hc).self)

/-! ### One step -/

/-- What a step makes of a polynomial. -/
structure Multiplies (e r : Expr) : Prop where
  free : Everywhere FreeNode r
  shape_iff : r.shape = .sum ↔ e.spreads = true
  negated_eq : r.negated = (e.negated && e.shape != .sum)
  sumFree : SumFree e → SumFree r

theorem negated_withSign (s : Bool) (e : Expr) : (e.withSign s).negated = s := sign_negated s _

/-- The step on a product. -/
theorem Multiplies.distributeAll {s : Bool} {es cs : List Expr}
    (h : List.Forall₂ Multiplies es cs) :
    Multiplies (product s es) ((distributeAll cs).withSign s) := by
  have hfree : ∀ c ∈ cs, Everywhere FreeNode c := forall_mem_of_forall₂ h fun e _ c hc => hc.free
  obtain ⟨hall, hshape⟩ := free_distributeAll hfree
  refine ⟨hall.free_withSign s, ?_, ?_, fun hsum => ?_⟩
  · rw [shape_withSign, hshape, spreads_product_iff]
    constructor
    · rintro ⟨c, hc, hs⟩
      obtain ⟨e, he, hec⟩ := exists_of_forall₂ h.flip hc
      exact ⟨e, he, hec.shape_iff.1 hs⟩
    · rintro ⟨e, he, hs⟩
      obtain ⟨c, hc, hec⟩ := exists_of_forall₂ h he
      exact ⟨c, hc, hec.shape_iff.2 hs⟩
  · rw [negated_withSign]
    cases s <;> rfl
  · have hes := (everywhere_product_iff.1 hsum).2
    have hcs : ∀ c ∈ cs, SumFree c := forall_mem_of_forall₂ h fun e he c hc => hc.sumFree (hes e he)
    exact (sumFree_distributeAll hcs).withSign s

/-- A power of a polynomial becomes a product of equal factors. -/
theorem expandPower_polynomial {s : Bool} {b : Expr} {q : Fraction}
    (hq : PolynomialNode (power s b (rational q))) (c : Expr) :
    expandPower s c q = .ok ((mkProduct false (List.replicate q.num c)).withSign s) := by
  obtain ⟨hnum, hden, hneg⟩ := hq
  have hroot : Fraction.isOne { q with num := 1 } = true := by simp [Fraction.isOne, hden, hneg]
  have hunfold : unfold c q.num = .ok (mkProduct false (List.replicate q.num c)) := by
    rw [unfold, if_neg (by omega), product?, if_neg (by rw [List.length_replicate]; omega)]
  rw [expandPower, hunfold]
  simp [bind, Except.bind, hroot, pure, Except.pure]

/-- The step on a power. -/
theorem Multiplies.power {s : Bool} {b c : Expr} {q : Fraction}
    (hq : PolynomialNode (power s b (rational q))) (hc : Multiplies b c) :
    Multiplies (power s b (rational q))
      ((mkProduct false (List.replicate q.num c)).withSign s) := by
  have hnode : FreeNode (product false (List.replicate q.num c)) :=
    ⟨by simpa [PolynomialNode] using hq.1, by rintro ⟨⟩⟩
  have hall := (everywhere_mkProduct_iff freeNode_copy).2
    ⟨hnode, List.forall_mem_replicate.2 (.inr hc.free)⟩
  refine ⟨hall.free_withSign s, ?_, ?_, fun hsum => ?_⟩
  · rw [shape_withSign]
    exact ⟨by rintro ⟨⟩, by rintro ⟨⟩⟩
  · rw [negated_withSign]
    cases s <;> rfl
  · have hb := hc.sumFree (everywhere_power_iff.1 hsum).2.1
    exact (sumFree_mkProduct (List.forall_mem_replicate.2 (.inr hb))).withSign s

/-- The step on a sum. -/
theorem Multiplies.mkSum {s : Bool} {es cs : List Expr} (hlength : 2 ≤ cs.length)
    (h : ∀ c ∈ cs, Everywhere FreeNode c) : Multiplies (sum s es) (mkSum false cs) where
  free := (everywhere_mkSum_iff freeNode_copy).2 ⟨⟨hlength, by rintro ⟨⟩⟩, h⟩
  shape_iff := iff_of_true rfl rfl
  negated_eq := by cases s <;> rfl
  sumFree hsum := absurd rfl hsum.self

/-- The step on a negated sum, which passes its sign on. -/
theorem Multiplies.passSigns {es cs ds : List Expr} (hlength : 2 ≤ cs.length)
    (h : List.Forall₂ Multiplies cs ds) :
    Multiplies (sum true es) (Expr.mkSum false (passSigns cs ds)) := by
  refine .mkSum ((length_passSigns h).symm ▸ hlength) ?_
  exact forall_mem_passSigns h fun c _ d hd => hd.free.free_withSign _

/-- Induction along the calls of a step on a polynomial, where it is known what becomes of its
parts. -/
theorem polynomial_induction {P : Expr → Expr → Prop}
    (rational : ∀ q, P (.rational q) (.rational q)) (symbol : ∀ s c, P (.symbol s c) (.symbol s c))
    (sum : ∀ es cs, List.Forall₂ (fun e c => Multiplies e c ∧ P e c) es cs →
      P (.sum false es) (.mkSum false cs))
    (negatedSum : ∀ es cs ds, List.Forall₂ (fun e c => Multiplies e c ∧ P e c) es cs →
      List.Forall₂ (fun c d => Multiplies c d ∧ P c d) cs ds →
      P (.sum true es) (.mkSum false (passSigns cs ds)))
    (product : ∀ s es cs, List.Forall₂ (fun e c => Multiplies e c ∧ P e c) es cs →
      Multiplies (.product s es) ((distributeAll cs).withSign s) →
        (distributeAll cs).negated = false →
      P (.product s es) ((distributeAll cs).withSign s))
    (power : ∀ s b q c, q = Fraction.ofNat q.num → Multiplies b c → P b c →
      Multiplies (.power s b (.rational q))
        ((mkProduct false (List.replicate q.num c)).withSign s) →
      P (.power s b (.rational q)) ((mkProduct false (List.replicate q.num c)).withSign s))
    {n : Nat} {e : Expr} {x : Expansion} (h : expandWithin n e = .ok x)
    (he : Everywhere PolynomialNode e) : Multiplies e x.result ∧ P e x.result := by
  have hall {es cs : List Expr}
      (h : List.Forall₂ (fun e c => Everywhere PolynomialNode e → Multiplies e c ∧ P e c) es cs)
      (hes : ∀ e ∈ es, Everywhere PolynomialNode e) :
      List.Forall₂ (fun e c => Multiplies e c ∧ P e c) es cs :=
    forall₂_of_mem h fun e he _ hc => hc (hes e he)
  have hleft {es cs : List Expr} (h : List.Forall₂ (fun e c => Multiplies e c ∧ P e c) es cs) :
      List.Forall₂ Multiplies es cs := h.imp fun _ _ => And.left
  revert he
  refine expandWithin_result_induction ?rational ?symbol ?sum ?negatedSum ?product ?power
    ?freePower h
  case rational =>
    intro q _
    exact ⟨⟨everywhere_rational_iff.2 ⟨trivial, by rintro ⟨⟩⟩, by simp [shape, spreads],
      (Bool.and_true _).symm, id⟩, rational q⟩
  case symbol =>
    intro s c _
    exact ⟨⟨everywhere_symbol_iff.2 ⟨trivial, by rintro ⟨⟩⟩, by simp [shape, spreads],
      (Bool.and_true _).symm, id⟩, symbol s c⟩
  case sum =>
    intro es cs hcs he
    obtain ⟨hlength, hes⟩ := everywhere_sum_iff.1 he
    have hcs := hall hcs hes
    refine ⟨.mkSum ?_ (forall_mem_of_forall₂ hcs fun e _ c hc => hc.1.free), sum es cs hcs⟩
    rw [← hcs.length_eq]
    exact hlength
  case negatedSum =>
    intro es cs ds hcs hds he
    obtain ⟨hlength, hes⟩ := everywhere_sum_iff.1 he
    have hcs := hall hcs hes
    have hds := hall hds (forall_mem_of_forall₂ hcs fun e _ c hc => hc.1.free.polynomial)
    refine ⟨.passSigns ?_ (hleft hds), negatedSum es cs ds hcs hds⟩
    rw [← hcs.length_eq]
    exact hlength
  case product =>
    intro s es cs hcs he
    obtain ⟨hlength, hes⟩ := everywhere_product_iff.1 he
    have hcs := hall hcs hes
    have hnegated : (distributeAll cs).negated = false :=
      negated_distributeAll (hcs.length_eq ▸ hlength)
    have hmul : Multiplies (.product s es) ((distributeAll cs).withSign s) :=
      .distributeAll (hleft hcs)
    rw [expandProduct, hnegated, Bool.false_bne]
    exact ⟨hmul, product s es cs hcs hmul hnegated⟩
  case power =>
    intro s b q c r hc hr he
    obtain ⟨hq, hb, -⟩ := everywhere_power_iff.1 he
    obtain ⟨hmul, hP⟩ := hc hb
    rw [expandPower_polynomial hq] at hr
    cases hr
    have hnat : q = Fraction.ofNat q.num := by
      obtain ⟨-, hden, hneg⟩ := hq
      cases q
      cases hden
      cases hneg
      rfl
    exact ⟨.power hq hmul, power s b q c hnat hmul hP (.power hq hmul)⟩
  case freePower =>
    intro s b e c d hx _ _ he
    have hnode := he.self
    cases e with
    | rational => exact absurd rfl hx
    | _ => exact hnode.elim

/-- Every step multiplies a polynomial out, by induction on the depth. -/
theorem multiplies_of_expandWithin {n : Nat} {e : Expr} {x : Expansion}
    (h : expandWithin n e = .ok x) (he : Everywhere PolynomialNode e) : Multiplies e x.result := by
  refine (polynomial_induction (P := fun _ _ => True) ?_ ?_ ?_ ?_ ?_ ?_ h he).1 <;>
    intros <;> trivial

/-! ### No failure -/

/-- A step on a polynomial does not fail. -/
theorem gives_expandWithin (n : Nat) {e : Expr} (he : Everywhere PolynomialNode e) :
    Gives (fun x => Multiplies e x.result) (expandWithin n e) := by
  induction n generalizing e with
  | zero => exact .inl rfl
  | succ n ih =>
    suffices h : Gives (fun _ => True) (expandWithin (n + 1) e) by
      rcases h with h | ⟨x, hx, -⟩
      · exact .inl h
      · exact .inr ⟨x, hx, multiplies_of_expandWithin hx he⟩
    have hall {es : List Expr} (hes : ∀ e ∈ es, Everywhere PolynomialNode e) :
        Gives (fun xs => List.Forall₂ Multiplies es (xs.map Expansion.result))
          (es.mapM (expandWithin n)) :=
      (Gives.mapM fun e he => ih (hes e he)).mono fun xs hxs => List.forall₂_map_right_iff.2 hxs
    cases e with
    | rational | symbol => exact .ok trivial
    | sum s es =>
      refine (hall (everywhere_sum_iff.1 he).2).bind fun xs hxs => ?_
      cases s with
      | false => exact .ok trivial
      | true =>
        have hcs : ∀ c ∈ xs.map Expansion.result, Everywhere PolynomialNode c :=
          forall_mem_of_forall₂ hxs fun e _ c hc => hc.free.polynomial
        exact (hall hcs).bind fun ys _ => .ok trivial
    | product s es => exact (hall (everywhere_product_iff.1 he).2).bind fun xs _ => .ok trivial
    | power s b x =>
      obtain ⟨hnode, hb, -⟩ := everywhere_power_iff.1 he
      cases x with
      | rational q =>
        refine (ih hb).bind fun y _ => ?_
        rw [expandPower_polynomial hnode]
        exact .ok trivial
      | _ => exact hnode.elim

/-- Expanding a polynomial gives a result. -/
theorem expandAll_polynomial {e : Expr} (he : Everywhere PolynomialNode e) :
    ∃ r, e.expandAll = .ok r := by
  have hsteps (n : Nat) {e : Expr} (he : Everywhere PolynomialNode e) :
      Gives (fun _ => True) (expandSteps n e) := by
    induction n generalizing e with
    | zero => exact .inl rfl
    | succ n ih =>
      refine (gives_expandWithin e.reach he).bind fun x hx => ?_
      split
      · exact .ok trivial
      · exact ih hx.free.polynomial
  obtain ⟨r, hr, -⟩ := (hsteps _ he).resolve_left (expandAll_ne_endless e)
  exact ⟨r, hr⟩

end SymScript.Expr
