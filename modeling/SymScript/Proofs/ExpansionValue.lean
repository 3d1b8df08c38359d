import Mathlib.Data.Rat.Cast.CharZero
import SymScript.Proofs.PolynomialExpansion

/-!
# The value of an expanded polynomial

A product that is multiplied out has the value of the product, but for one slip: the sign of a
factor that is a negated sum is dropped.  A negated sum gives its addends the opposite of the signs
that they have after one expansion, while it expands them twice; the sign of a negated sum among
them has moved on by then.

So a sign is lost where a factor, or an addend of a negated sum, is negated and becomes a sum by the
step itself (`LosesSign`).  It takes longer where a power has to be unfolded first
(`LosesSignLater`). `KeepsSigns` rules both out, and a step keeps it.  What is lost at the root of a
polynomial, and nowhere else, is told exactly: the addends that lose their signs count twice.
-/

namespace SymScript.Expr

variable {K : Type*} [Field K] {ρ : Char → K}

/-! ### Distributed products -/

/-- The addends of what is no negated sum add up to its value. -/
theorem valueSum_addends_of_unsigned {e : Expr} (h : e.shape = .sum → e.negated = false) :
    valueSum ρ e.addends = value ρ e := by
  cases e with
  | sum s es =>
    obtain rfl : s = false := h rfl
    rfl
  | _ => simp [addends, valueSum]

/-- All products of an addend with another add up to the product of the sums. -/
theorem valueSum_crossProducts (a b : Expr) :
    valueSum ρ (crossProducts a b) = valueSum ρ a.addends * valueSum ρ b.addends := by
  have hrow (x : Expr) (ys : List Expr) :
      valueSum ρ (ys.map fun y => mkProduct false [x, y]) = value ρ x * valueSum ρ ys := by
    induction ys with
    | nil => simp [valueSum]
    | cons y ys ih => simp [valueSum, ih, value_mkProduct, valueProduct, mul_add]
  rw [crossProducts]
  induction a.addends with
  | nil => simp [valueSum]
  | cons x xs ih => rw [List.flatMap_cons, valueSum_append, hrow, ih, valueSum, add_mul]

/-- Distributing two factors keeps the value, unless one is a negated sum. -/
theorem value_distribute {a b : Expr} (ha : a.shape = .sum → a.negated = false)
    (hb : b.shape = .sum → b.negated = false) :
    value ρ (distribute a b) = value ρ a * value ρ b := by
  rw [← valueSum_addends_of_unsigned fun _ => negated_distribute a b,
    valueSum_perm (addends_distribute_perm a b), valueSum_crossProducts,
    valueSum_addends_of_unsigned ha, valueSum_addends_of_unsigned hb]

/-- Distributing a list of factors keeps the value, unless one is a negated sum. -/
theorem value_distributeAll {cs : List Expr} (h : ∀ c ∈ cs, c.shape = .sum → c.negated = false) :
    value ρ (distributeAll cs) = valueProduct ρ cs := by
  cases cs with
  | nil => simp [distributeAll, valueProduct]
  | cons a cs =>
    obtain ⟨ha, hcs⟩ := List.forall_mem_cons.1 h
    rw [valueProduct]
    change value ρ (cs.foldl distribute a) = _
    clear h
    induction cs generalizing a with
    | nil => simp [valueProduct]
    | cons b cs ih =>
      obtain ⟨hb, hcs⟩ := List.forall_mem_cons.1 hcs
      rw [List.foldl_cons, ih _ (fun _ => negated_distribute a b) hcs,
        value_distribute ha hb, mul_assoc, valueProduct]

/-- A factor repeated is a power of its value. -/
theorem valueProduct_replicate (n : Nat) (e : Expr) :
    valueProduct ρ (List.replicate n e) = value ρ e ^ n := by
  rw [valueProduct_eq, List.map_replicate, List.prod_replicate]

/-! ### Where signs are lost -/

/-- A negated expression that a step makes a sum. -/
def LosesSign (e : Expr) : Prop := e.negated = true ∧ e.shape ≠ .sum ∧ e.spreads = true

/-- A negated expression that becomes a sum, but not by the next step. -/
def LosesSignLater (e : Expr) : Prop := e.negated = true ∧ e.spreads = false ∧ ¬ SumFree e

instance : DecidablePred LosesSign := fun e =>
  inferInstanceAs (Decidable (e.negated = true ∧ e.shape ≠ .sum ∧ e.spreads = true))

instance : DecidablePred LosesSignLater := fun e =>
  inferInstanceAs (Decidable (e.negated = true ∧ e.spreads = false ∧ ¬ SumFree e))

/-- The addends that keep their signs in a step. -/
def keptAddends : Expr → List Expr
  | sum true _ => []
  | e => e.addends

/-- What is kept is one of the addends. -/
theorem mem_addends_of_kept {e x : Expr} (h : x ∈ e.keptAddends) : x ∈ e.addends := by
  cases e with
  | sum s es =>
    cases s with
    | false => exact h
    | true => cases h
  | _ => exact h

/-- A node where no sign is lost, neither in a step nor in those after it. -/
def KeepsSigns : Expr → Prop
  | sum true es => ∀ e ∈ es, ¬ LosesSign e
  | product _ es => ∀ e ∈ es, ¬ LosesSign e ∧ ∀ x ∈ e.keptAddends, ¬ LosesSignLater x
  | power _ b _ => ¬ LosesSignLater b
  | _ => True

instance : DecidablePred KeepsSigns
  | sum true es => inferInstanceAs (Decidable (∀ e ∈ es, ¬ LosesSign e))
  | product _ es =>
    inferInstanceAs (Decidable (∀ e ∈ es, ¬ LosesSign e ∧ ∀ x ∈ e.keptAddends, ¬ LosesSignLater x))
  | power _ b _ => inferInstanceAs (Decidable (¬ LosesSignLater b))
  | rational _ | symbol .. | sum false _ => inferInstanceAs (Decidable True)

theorem spreads_copy (e : Expr) : spreads (copy e) = spreads e := by
  rw [Bool.eq_iff_iff]
  induction e using children_induction with
  | product s es ih =>
    rw [copy, spreads_product_iff, spreads_product_iff, ← not_iff_not]
    push Not
    rw [forall_mem_sort_copyAll]
    exact forall₂_congr fun e he => not_congr (ih e he)
  | _ => exact Iff.rfl

theorem spreads_withSign (s : Bool) (e : Expr) : spreads (e.withSign s) = spreads e := by
  have hsign (e : Expr) : spreads (e.sign s) = spreads e := by cases e <;> rfl
  rw [withSign, hsign, spreads_copy]

theorem losesSign_copy (e : Expr) : LosesSign (copy e) ↔ LosesSign e := by
  rw [LosesSign, copy_negated, shape_copy, spreads_copy, LosesSign]

theorem losesSignLater_copy (e : Expr) : LosesSignLater (copy e) ↔ LosesSignLater e := by
  rw [LosesSignLater, copy_negated, spreads_copy, sumFree_copy, LosesSignLater]

theorem forall_mem_keptAddends_copy {Q : Expr → Prop} (hQ : ∀ e, Q (copy e) ↔ Q e) (e : Expr) :
    (∀ x ∈ (copy e).keptAddends, Q x) ↔ ∀ x ∈ e.keptAddends, Q x := by
  have hsingle (e : Expr) : (∀ x ∈ [copy e], Q x) ↔ ∀ x ∈ [e], Q x := by
    rw [List.forall_mem_singleton, List.forall_mem_singleton, hQ]
  cases e with
  | sum s es =>
    cases s with
    | false =>
      change (∀ x ∈ sort (copyAll es), Q x) ↔ ∀ x ∈ es, Q x
      rw [forall_mem_sort_copyAll]
      exact forall₂_congr fun e _ => hQ e
    | true => exact Iff.rfl
  | rational q => exact hsingle (rational q)
  | symbol s c => exact hsingle (symbol s c)
  | product s es => exact hsingle (product s es)
  | power s b x => exact hsingle (power s b x)

/-- A copy keeps signs if the original does. -/
theorem keepsSigns_copy (e : Expr) : KeepsSigns (copy e) ↔ KeepsSigns e := by
  cases e with
  | rational | symbol => exact Iff.rfl
  | sum s es =>
    cases s with
    | false => exact Iff.rfl
    | true =>
      rw [copy, KeepsSigns, KeepsSigns, forall_mem_sort_copyAll]
      exact forall₂_congr fun e _ => not_congr (losesSign_copy e)
  | product s es =>
    rw [copy, KeepsSigns, KeepsSigns, forall_mem_sort_copyAll]
    refine forall₂_congr fun e _ => and_congr (not_congr (losesSign_copy e)) ?_
    exact forall_mem_keptAddends_copy (fun e => not_congr (losesSignLater_copy e)) e
  | power s b x => exact not_congr (losesSignLater_copy b)

/-- The sign of a node matters to it only if it is a sum. -/
theorem keepsSigns_sign {e : Expr} (h : KeepsSigns e)
    (hsum : e.shape = .sum → ∀ x ∈ e.addends, ¬ LosesSign x) (s : Bool) :
    KeepsSigns (e.sign s) := by
  cases e with
  | rational | symbol => trivial
  | sum t es =>
    cases s with
    | false => trivial
    | true => exact hsum rfl
  | product | power => exact h

/-- What becomes a sum is not free of sums. -/
theorem not_sumFree_of_spreads {e : Expr} (h : e.spreads = true) : ¬ SumFree e := by
  induction e using children_induction with
  | sum s es => exact fun hsum => hsum.self rfl
  | product s es ih =>
    intro hsum
    obtain ⟨e, he, hspreads⟩ := spreads_product_iff.1 h
    exact ih e he hspreads ((everywhere_product_iff.1 hsum).2 e he)
  | _ => cases h

/-- Without powers, a sign is lost at once or never. -/
theorem not_losesSignLater_of_free {e : Expr} (h : Everywhere FreeNode e) : ¬ LosesSignLater e := by
  rintro ⟨-, hspreads, hsum⟩
  rw [spreads_of_not_sumFree h hsum] at hspreads
  cases hspreads

/-- In what is already expanded no sign will be lost. -/
theorem not_losesSignLater_of_mem_keptAddends {e : Expr} (h : Everywhere FreeNode e) :
    ∀ x ∈ e.keptAddends, ¬ LosesSignLater x :=
  fun _ hx => not_losesSignLater_of_free (h.of_mem_addends (mem_addends_of_kept hx))

namespace Multiplies

variable {e r : Expr}

/-- A step makes no negated sum, unless the expression loses its sign. -/
theorem negated_of_sum (h : Multiplies e r) (he : ¬ LosesSign e) :
    r.shape = .sum → r.negated = false := by
  intro hsum
  by_contra hneg
  rw [Bool.not_eq_false, h.negated_eq, Bool.and_eq_true] at hneg
  exact he ⟨hneg.1, by simpa using hneg.2, h.shape_iff.1 hsum⟩

/-- An expression that loses its sign after a step loses it later. -/
theorem losesSignLater (h : Multiplies e r) (hr : LosesSign r) : LosesSignLater e := by
  obtain ⟨hneg, hshape, hspreads⟩ := hr
  rw [h.negated_eq, Bool.and_eq_true] at hneg
  refine ⟨hneg.1, ?_, fun hsum => not_sumFree_of_spreads hspreads (h.sumFree hsum)⟩
  rw [← Bool.not_eq_true, ← h.shape_iff]
  exact hshape

end Multiplies

/-! ### One step -/

/-- What a step keeps of a polynomial that loses no signs. -/
structure Preserves (ρ : Char → K) (e r : Expr) : Prop where
  value_eq : value ρ r = value ρ e
  keepsSigns : Everywhere KeepsSigns r
  addends : (∀ x ∈ e.keptAddends, ¬ LosesSignLater x) → ∀ x ∈ r.addends, ¬ LosesSign x

/-- The addends of a result that is no sum. -/
theorem Multiplies.addends_of_shape_ne {e r : Expr} (h : Multiplies e r) (he : e.shape ≠ .sum)
    (hr : r.shape ≠ .sum) (hkept : ∀ x ∈ e.keptAddends, ¬ LosesSignLater x) :
    ∀ x ∈ r.addends, ¬ LosesSign x := by
  rw [Expr.addends_of_shape_ne hr, List.forall_mem_singleton]
  refine fun hloses => hkept e ?_ (h.losesSignLater hloses)
  cases e with
  | sum => exact absurd rfl he
  | _ => exact List.mem_singleton_self _

/-- Addends that keep their values keep the sum. -/
theorem valueSum_of_preserves {es cs : List Expr} (h : List.Forall₂ (Preserves ρ) es cs) :
    valueSum ρ cs = valueSum ρ es := by
  induction h with
  | nil => rfl
  | cons hc _ ih => rw [valueSum, hc.value_eq, ih, valueSum]

/-- Factors that keep their values keep the product. -/
theorem valueProduct_of_preserves {es cs : List Expr} (h : List.Forall₂ (Preserves ρ) es cs) :
    valueProduct ρ cs = valueProduct ρ es := by
  induction h with
  | nil => rfl
  | cons hc _ ih => rw [valueProduct, hc.value_eq, ih, valueProduct]

/-- The addends of a sum lose no sign if its members lose none. -/
theorem forall_mem_addends_mkSum {es : List Expr} (h : ∀ e ∈ es, ¬ LosesSign e) :
    ∀ x ∈ (mkSum false es).addends, ¬ LosesSign x :=
  forall_mem_sort_copyAll.2 fun e he => (losesSign_copy e).not.2 (h e he)

section Steps

variable {es cs ds : List Expr}

/-- The step on a sum, whose members are expanded one by one. -/
theorem preserves_mkSum (hcs : List.Forall₂ (fun e c => Multiplies e c ∧ Preserves ρ e c) es cs) :
    Preserves ρ (sum false es) (mkSum false cs) where
  value_eq := by
    rw [value_mkSum, valueSum_of_preserves (hcs.imp fun _ _ => And.right)]
    rfl
  keepsSigns := (everywhere_mkSum_iff keepsSigns_copy).2
    ⟨trivial, forall_mem_of_forall₂ hcs fun e _ c hc => hc.2.keepsSigns⟩
  addends hkept := forall_mem_addends_mkSum
    (forall_mem_of_forall₂ hcs fun e he c hc hloses => hkept e he (hc.1.losesSignLater hloses))

/-- An addend of a negated sum gets the opposite value, since a second expansion leaves its sign
alone. A sign that was lost has moved on to addends below by then. -/
theorem value_passSign {e c d : Expr} (hc : Multiplies e c ∧ Preserves ρ e c)
    (hd : Multiplies c d ∧ Preserves ρ c d) :
    value ρ (d.withSign (!c.negated)) = if LosesSign e then value ρ e else -value ρ e := by
  rw [value_withSign, hd.1.negated_eq, hd.2.value_eq, hc.2.value_eq]
  split
  · rename_i he
    have hneg : c.negated = true := by
      rw [hc.1.negated_eq, he.1, Bool.true_and]
      simpa using he.2.1
    rw [hneg, hc.1.shape_iff.2 he.2.2]
    rfl
  · rename_i he
    by_cases hsum : c.shape = .sum
    · rw [hc.1.negated_of_sum he hsum]
      rfl
    · rw [show (c.shape != .sum) = true by simpa using hsum, Bool.and_true]
      cases c.negated <;> rfl

/-- Where the sign of a sum is passed on, each addend that loses it counts with the wrong sign. -/
theorem valueSum_passSigns (hcs : List.Forall₂ (fun e c => Multiplies e c ∧ Preserves ρ e c) es cs)
    (hds : List.Forall₂ (fun c d => Multiplies c d ∧ Preserves ρ c d) cs ds) :
    valueSum ρ (passSigns cs ds) =
      -valueSum ρ es + 2 * valueSum ρ (es.filter fun e => decide (LosesSign e)) := by
  induction hcs generalizing ds with
  | nil =>
    cases hds
    simp [passSigns, valueSum]
  | @cons e c es cs hc _ ih =>
    cases hds with
    | @cons _ d _ ds hd hds =>
      change value ρ (d.withSign (!c.negated)) + valueSum ρ (passSigns cs ds) = _
      rw [value_passSign hc hd, ih hds, valueSum, List.filter_cons]
      by_cases he : LosesSign e
      · rw [if_pos he, if_pos (decide_eq_true he), valueSum]
        ring
      · rw [if_neg he, if_neg (by simpa using he)]
        ring

/-- Where the sign of a sum is passed on, later steps lose no sign. -/
theorem keepsSigns_passSigns
    (hcs : List.Forall₂ (fun e c => Multiplies e c ∧ Preserves ρ e c) es cs)
    (hds : List.Forall₂ (fun c d => Multiplies c d ∧ Preserves ρ c d) cs ds) :
    Everywhere KeepsSigns (mkSum false (passSigns cs ds)) := by
  refine (everywhere_mkSum_iff keepsSigns_copy).2 ⟨trivial, forall_mem_passSigns hds
    fun c hc d hd => ?_⟩
  refine hd.2.keepsSigns.withSign keepsSigns_copy ?_
  refine keepsSigns_sign hd.2.keepsSigns.self (fun _ => hd.2.addends ?_) _
  exact not_losesSignLater_of_mem_keptAddends
    (forall_mem_of_forall₂ hcs (fun e _ c hc => hc.1.free) c hc)

/-- The step on a negated sum, where no addend loses the sign. -/
theorem preserves_passSigns (hes : ∀ e ∈ es, ¬ LosesSign e)
    (hcs : List.Forall₂ (fun e c => Multiplies e c ∧ Preserves ρ e c) es cs)
    (hds : List.Forall₂ (fun c d => Multiplies c d ∧ Preserves ρ c d) cs ds) :
    Preserves ρ (sum true es) (mkSum false (passSigns cs ds)) := by
  refine ⟨?_, keepsSigns_passSigns hcs hds, fun _ => forall_mem_addends_mkSum ?_⟩
  · have hlost : es.filter (fun e => decide (LosesSign e)) = [] := by simpa using hes
    rw [value_mkSum, valueSum_passSigns hcs hds, hlost, valueSum, mul_zero, add_zero]
    rfl
  · -- The first expansion has unfolded the powers, so the second one makes a sum of what contains
    -- one.
    refine forall_mem_passSigns hds fun c hc d hd hloses => ?_
    obtain ⟨-, hshape, hspreads⟩ := hloses
    rw [shape_withSign, Ne, hd.1.shape_iff] at hshape
    rw [spreads_withSign] at hspreads
    have hsum : SumFree c := by
      by_contra hsum
      exact hshape (spreads_of_not_sumFree
        (forall_mem_of_forall₂ hcs (fun e _ c hc => hc.1.free) c hc) hsum)
    exact not_sumFree_of_spreads hspreads (hd.1.sumFree hsum)

/-- The addends over which is distributed, which lose no signs later on. -/
theorem keepsSigns_addends_distributeAll
    (hkeeps : ∀ e ∈ es, ∀ x ∈ e.keptAddends, ¬ LosesSignLater x)
    (hcs : List.Forall₂ (fun e c => Multiplies e c ∧ Preserves ρ e c) es cs) :
    ∀ p ∈ (distributeAll cs).addends,
      Everywhere FreeNode p ∧ Everywhere KeepsSigns p ∧ ¬ LosesSign p := by
  refine forall_mem_addends_distributeAll ?_ (fun x y hx hy => ?_) ?_
  · exact ⟨everywhere_rational_iff.2 ⟨trivial, by rintro ⟨⟩⟩,
      everywhere_rational_iff.2 trivial, by decide⟩
  · have hlater {x : Expr} (hx : Everywhere FreeNode x ∧ Everywhere KeepsSigns x ∧ ¬ LosesSign x) :
        ¬ LosesSign x ∧ ∀ y ∈ x.keptAddends, ¬ LosesSignLater y :=
      ⟨hx.2.2, not_losesSignLater_of_mem_keptAddends hx.1⟩
    refine ⟨(everywhere_mkProduct_iff freeNode_copy).2
        ⟨⟨le_rfl, by rintro ⟨⟩⟩, forall_mem_pair.2 ⟨hx.1, hy.1⟩⟩,
      (everywhere_mkProduct_iff keepsSigns_copy).2 ⟨?_, forall_mem_pair.2 ⟨hx.2.1, hy.2.1⟩⟩,
      fun hloses => ?_⟩
    · exact forall_mem_pair.2 ⟨hlater hx, hlater hy⟩
    · cases hloses.1
  · refine forall_mem_of_forall₂ hcs fun e he c hc x hx => ?_
    exact ⟨hc.1.free.of_mem_addends hx, hc.2.keepsSigns.of_mem_addends hx,
      hc.2.addends (hkeeps e he) x hx⟩

/-- The step on a product, whose factors are multiplied out. -/
theorem preserves_distributeAll {s : Bool} (hnode : KeepsSigns (product s es))
    (hcs : List.Forall₂ (fun e c => Multiplies e c ∧ Preserves ρ e c) es cs)
    (hmul : Multiplies (product s es) ((distributeAll cs).withSign s))
    (hneg : (distributeAll cs).negated = false) :
    Preserves ρ (product s es) ((distributeAll cs).withSign s) := by
  have haddends := keepsSigns_addends_distributeAll (fun e he => (hnode e he).2) hcs
  have hkeeps : Everywhere KeepsSigns (distributeAll cs) := by
    refine everywhere_of_addends (fun p hp => (haddends p hp).2.1) fun hsum => ?_
    obtain ⟨t, hr⟩ := eq_sum_of_shape hsum
    obtain rfl : t = false := by rw [← hneg, hr]; rfl
    rw [hr]
    trivial
  refine ⟨?_, hkeeps.withSign keepsSigns_copy ?_, fun hkept => ?_⟩
  · rw [value_withSign, hneg, Bool.bne_false, value_distributeAll,
      valueProduct_of_preserves (hcs.imp fun _ _ => And.right), value]
    exact forall_mem_of_forall₂ hcs fun e he c hc => hc.1.negated_of_sum (hnode e he).1
  · exact keepsSigns_sign hkeeps.self (fun _ p hp => (haddends p hp).2.2) s
  · by_cases hsum : ((distributeAll cs).withSign s).shape = .sum
    · rw [shape_withSign] at hsum
      obtain ⟨t, hr⟩ := eq_sum_of_shape hsum
      rw [hr]
      exact forall_mem_sort_copyAll.2 fun p hp => (losesSign_copy p).not.2 (haddends p hp).2.2
    · exact hmul.addends_of_shape_ne (by rintro ⟨⟩) hsum hkept

/-- The step on a power, which becomes a product of equal factors. -/
theorem preserves_power {s : Bool} {b c : Expr} {q : Fraction} (hb : ¬ LosesSignLater b)
    (hq : q = Fraction.ofNat q.num) (hc : Multiplies b c ∧ Preserves ρ b c)
    (hmul : Multiplies (power s b (rational q))
      ((mkProduct false (List.replicate q.num c)).withSign s)) :
    Preserves ρ (power s b (rational q))
      ((mkProduct false (List.replicate q.num c)).withSign s) := by
  have hall {Q : Expr → Prop} (hQ : Q c) : ∀ e ∈ List.replicate q.num c, Q e :=
    List.forall_mem_replicate.2 (.inr hQ)
  have hnode : KeepsSigns (product false (List.replicate q.num c)) :=
    hall ⟨fun hloses => hb (hc.1.losesSignLater hloses),
      not_losesSignLater_of_mem_keptAddends hc.1.free⟩
  have hkeeps := (everywhere_mkProduct_iff keepsSigns_copy).2 ⟨hnode, hall hc.2.keepsSigns⟩
  refine ⟨?_, hkeeps.withSign keepsSigns_copy (keepsSigns_sign hkeeps.self (by rintro ⟨⟩) s),
    hmul.addends_of_shape_ne (by rintro ⟨⟩) (by rw [shape_withSign]; rintro ⟨⟩)⟩
  rw [value_withSign, value_mkProduct, valueProduct_replicate, hc.2.value_eq, value, hq]
  change signed (s != false) _ = _
  simp [integer, Fraction.ofNat, Fraction.signedNum]

end Steps

/-- A step keeps the value of a polynomial that loses no signs, and it goes on losing none. -/
theorem preserves_of_expandWithin {n : Nat} {e : Expr} {x : Expansion}
    (h : expandWithin n e = .ok x)
    (he : Everywhere PolynomialNode e) (hkeeps : Everywhere KeepsSigns e) :
    Preserves ρ e x.result := by
  have hall {es cs : List Expr}
      (h : List.Forall₂ (fun e c => Multiplies e c ∧ (Everywhere KeepsSigns e → Preserves ρ e c)) es
        cs)
      (hes : ∀ e ∈ es, Everywhere KeepsSigns e) :
      List.Forall₂ (fun e c => Multiplies e c ∧ Preserves ρ e c) es cs :=
    forall₂_of_mem h fun e he _ hc => ⟨hc.1, hc.2 (hes e he)⟩
  refine (polynomial_induction (P := fun e r => Everywhere KeepsSigns e → Preserves ρ e r)
    ?rational ?symbol ?sum ?negatedSum ?product ?power h he).2 hkeeps
  case rational =>
    refine fun q hkeeps => ⟨rfl, hkeeps, fun _ => List.forall_mem_singleton.2 fun hloses => ?_⟩
    cases hloses.2.2
  case symbol =>
    refine fun s c hkeeps => ⟨rfl, hkeeps, fun _ => List.forall_mem_singleton.2 fun hloses => ?_⟩
    cases hloses.2.2
  case sum =>
    exact fun es cs hcs hkeeps => preserves_mkSum (hall hcs (everywhere_sum_iff.1 hkeeps).2)
  case negatedSum =>
    intro es cs ds hcs hds hkeeps
    obtain ⟨hnode, hes⟩ := everywhere_sum_iff.1 hkeeps
    have hcs := hall hcs hes
    have hds := hall hds (forall_mem_of_forall₂ hcs fun e _ c hc => hc.2.keepsSigns)
    exact preserves_passSigns hnode hcs hds
  case product =>
    intro s es cs hcs hmul hneg hkeeps
    obtain ⟨hnode, hes⟩ := everywhere_product_iff.1 hkeeps
    exact preserves_distributeAll hnode (hall hcs hes) hmul hneg
  case power =>
    intro s b q c hq hc hP hmul hkeeps
    obtain ⟨hnode, hb, -⟩ := everywhere_power_iff.1 hkeeps
    exact preserves_power hnode hq ⟨hc, hP hb⟩ hmul

/-! ### All steps -/

/-- If nothing is lost after the first step, its result has the value of the result of the loop. -/
theorem value_of_expandAll_of_first {e r : Expr} {v : K} (hr : e.expandAll = .ok r)
    (he : Everywhere PolynomialNode e)
    (hfirst : ∀ x, e.expand = .ok x → Everywhere KeepsSigns x.result ∧ value ρ x.result = v) :
    value ρ r = v := by
  let I (t : Expr) : Prop :=
    t = e ∨ Everywhere PolynomialNode t ∧ Everywhere KeepsSigns t ∧ value ρ t = v
  have hstep (t : Expr) (x : Expansion) (ht : I t) (hx : t.expand = .ok x) :
      Everywhere PolynomialNode x.result ∧ Everywhere KeepsSigns x.result ∧
      value ρ x.result = v := by
    rcases ht with rfl | ⟨hpoly, hkeeps, hv⟩
    · exact ⟨(multiplies_of_expandWithin hx he).free.polynomial, hfirst x hx⟩
    · have hpreserves := preserves_of_expandWithin hx hpoly hkeeps (ρ := ρ)
      exact ⟨(multiplies_of_expandWithin hx hpoly).free.polynomial, hpreserves.keepsSigns,
        hpreserves.value_eq.trans hv⟩
  obtain ⟨t, ht, hlast⟩ :=
    expandSteps_eq_ok (I := I) (fun t x ht hx => .inr (hstep t x ht hx)) hr (.inl rfl)
  exact (hstep t _ ht hlast).2.2

/-- Expanding a polynomial that loses no signs keeps its value. -/
theorem value_of_expandAll {e r : Expr} (hr : e.expandAll = .ok r)
    (he : Everywhere PolynomialNode e)
    (hkeeps : Everywhere KeepsSigns e) : value ρ r = value ρ e := by
  refine value_of_expandAll_of_first hr he fun x hx => ?_
  have hpreserves := preserves_of_expandWithin hx he hkeeps (ρ := ρ)
  exact ⟨hpreserves.keepsSigns, hpreserves.value_eq⟩

/-! ### Signs on numbers and letters only -/

/-- A node that has no sign, unless it is a number or a letter. -/
def UnsignedNode : Expr → Prop
  | sum s _ | product s _ | power s _ _ => s = false
  | _ => True

instance : DecidablePred UnsignedNode
  | sum s _ | product s _ | power s _ _ => inferInstanceAs (Decidable (s = false))
  | rational _ | symbol .. => inferInstanceAs (Decidable True)

theorem unsignedNode_copy (e : Expr) : UnsignedNode (copy e) ↔ UnsignedNode e := by
  cases e <;> exact Iff.rfl

theorem unsignedNode_of_negated {e : Expr} (h : e.negated = false) : UnsignedNode e := by
  cases e with
  | rational | symbol => trivial
  | _ => exact h

/-- Taking the sign away leaves an expression without negated sums and products. -/
theorem everywhere_unsigned_withSign {e : Expr} (h : Everywhere UnsignedNode e) :
    Everywhere UnsignedNode (e.withSign false) :=
  h.withSign unsignedNode_copy (unsignedNode_of_negated (sign_negated false e))

/-- What is not negated, or has no sum in it, loses no sign. -/
theorem not_losesSign_of_unsigned {e : Expr} (h : UnsignedNode e) :
    ¬ LosesSign e ∧ ¬ LosesSignLater e := by
  have hneg : e.negated = true → e.spreads = false ∧ SumFree e := by
    intro hneg
    cases e with
    | rational q => exact ⟨rfl, everywhere_rational_iff.2 (by rintro ⟨⟩)⟩
    | symbol s c => exact ⟨rfl, everywhere_symbol_iff.2 (by rintro ⟨⟩)⟩
    | _ =>
      cases (show _ = false from h)
      cases hneg
  constructor
  · rintro ⟨hnegated, -, hspreads⟩
    rw [(hneg hnegated).1] at hspreads
    cases hspreads
  · exact fun hloses => hloses.2.2 (hneg hloses.1).2

/-- Where only numbers and letters are negated, no sign is lost. -/
theorem keepsSigns_of_unsigned {e : Expr} (h : Everywhere UnsignedNode e) :
    Everywhere KeepsSigns e := by
  induction e using children_induction with
  | rational q => exact everywhere_rational_iff.2 trivial
  | symbol s c => exact everywhere_symbol_iff.2 trivial
  | sum s es ih =>
    obtain ⟨hs, hes⟩ := everywhere_sum_iff.1 h
    obtain rfl : s = false := hs
    exact everywhere_sum_iff.2 ⟨trivial, fun e he => ih e he (hes e he)⟩
  | product s es ih =>
    obtain ⟨-, hes⟩ := everywhere_product_iff.1 h
    refine everywhere_product_iff.2 ⟨fun e he => ⟨?_, fun x hx => ?_⟩,
      fun e he => ih e he (hes e he)⟩
    · exact (not_losesSign_of_unsigned (hes e he).self).1
    · exact (not_losesSign_of_unsigned ((hes e he).of_mem_addends (mem_addends_of_kept hx)).self).2
  | power s b x hb hx =>
    obtain ⟨-, hbase, hexponent⟩ := everywhere_power_iff.1 h
    exact everywhere_power_iff.2 ⟨(not_losesSign_of_unsigned hbase.self).2, hb hbase, hx hexponent⟩

/-- A step gives no signs to sums, products and powers. -/
theorem unsigned_of_expandWithin {n : Nat} {e : Expr} {x : Expansion} (h : expandWithin n e = .ok x)
    (he : Everywhere PolynomialNode e) (hs : Everywhere UnsignedNode e) :
    Everywhere UnsignedNode x.result := by
  have hall {es cs : List Expr} (hes : ∀ e ∈ es, Everywhere UnsignedNode e)
      (h : List.Forall₂
        (fun e c => Multiplies e c ∧ (Everywhere UnsignedNode e → Everywhere UnsignedNode c)) es
        cs) :
      ∀ c ∈ cs, Everywhere UnsignedNode c :=
    forall_mem_of_forall₂ h fun e he c hc => hc.2 (hes e he)
  refine (polynomial_induction (P := fun e r => Everywhere UnsignedNode e →
    Everywhere UnsignedNode r) ?rational ?symbol ?sum ?negatedSum ?product ?power h he).2 hs
  case rational => exact fun q => id
  case symbol => exact fun s c => id
  case sum =>
    intro es cs hcs hs
    exact (everywhere_mkSum_iff unsignedNode_copy).2 ⟨rfl, hall (everywhere_sum_iff.1 hs).2 hcs⟩
  case negatedSum =>
    intro es cs ds _ _ hs
    cases (show true = false from hs.self)
  case product =>
    intro s es cs hcs _ hneg hs
    obtain ⟨hnode, hes⟩ := everywhere_product_iff.1 hs
    obtain rfl : s = false := hnode
    refine everywhere_unsigned_withSign (everywhere_of_addends ?_ fun _ =>
      unsignedNode_of_negated hneg)
    refine forall_mem_addends_distributeAll (everywhere_rational_iff.2 trivial)
      (fun x y hx hy => ?_) ?_
    · exact (everywhere_mkProduct_iff unsignedNode_copy).2 ⟨rfl, forall_mem_pair.2 ⟨hx, hy⟩⟩
    · exact fun c hc x hx => (hall hes hcs c hc).of_mem_addends hx
  case power =>
    intro s b q c _ _ hc _ hs
    obtain ⟨hnode, hb, -⟩ := everywhere_power_iff.1 hs
    obtain rfl : s = false := hnode
    refine everywhere_unsigned_withSign ((everywhere_mkProduct_iff unsignedNode_copy).2 ⟨rfl, ?_⟩)
    exact List.forall_mem_replicate.2 (.inr (hc hb))

/-- Expanding a polynomial in which only numbers and letters are negated gives a result of the same
kind, and it has the value of the polynomial. -/
theorem expandAll_value_of_unsigned {e : Expr} (he : e.Everywhere PolynomialNode)
    (hs : e.Everywhere UnsignedNode) : ∃ r, e.expandAll = .ok r ∧ r.Everywhere UnsignedNode ∧
      ∀ ρ : Char → ℚ, value ρ r = value ρ e := by
  obtain ⟨r, hr⟩ := expandAll_polynomial he
  have hstep (t : Expr) (x : Expansion) (ht : Everywhere PolynomialNode t ∧
      Everywhere UnsignedNode t)
      (hx : t.expand = .ok x) : Everywhere PolynomialNode x.result ∧
      Everywhere UnsignedNode x.result :=
    ⟨(multiplies_of_expandWithin hx ht.1).free.polynomial, unsigned_of_expandWithin hx ht.1 ht.2⟩
  obtain ⟨t, ht, hlast⟩ := expandSteps_eq_ok hstep hr ⟨he, hs⟩
  exact ⟨r, hr, (hstep t _ ht hlast).2,
    fun ρ => value_of_expandAll hr he (keepsSigns_of_unsigned hs)⟩

/-- A square of a difference, times a product. -/
theorem expandAll_value_of_unsigned_square :
    let e := product false [power false (sum false [symbol false 'x', symbol true 'y']) (.ofNat 2),
      product false [rational { negated := true, num := 3, den := 2 },
        sum false [symbol false 'z', .ofNat 1]]]
    (e.Everywhere PolynomialNode ∧ e.Everywhere UnsignedNode) ∧ ∃ r, e.expandAll = .ok r ∧
      r.Everywhere UnsignedNode ∧ ∀ ρ : Char → ℚ, value ρ r = value ρ e :=
  ⟨by decide, expandAll_value_of_unsigned (by decide) (by decide)⟩

/-! ### Opposites -/

/-- The addends whose signs are lost if the sum is negated. -/
def lostAddends : Expr → List Expr
  | sum _ es => es.filter fun e => decide (LosesSign e)
  | _ => []

/-- An expression and its opposite lose signs on the same addends. -/
theorem valueSum_lostAddends_flip (e : Expr) :
    valueSum ρ e.flip.lostAddends = valueSum ρ e.lostAddends := by
  cases e with
  | sum s es =>
    change valueSum ρ ((sort (copyAll es)).filter _) = valueSum ρ (es.filter _)
    rw [valueSum_perm ((sort_perm _).filter _), copyAll_eq_map, List.filter_map, ← copyAll_eq_map,
      valueSum_copyAll]
    refine congrArg (valueSum ρ) (List.filter_congr fun e _ => ?_)
    exact decide_eq_decide.2 (losesSign_copy e)
  | _ => rfl

theorem keepsSigns_addends_flip {e : Expr} (h : ∀ x ∈ e.addends, Everywhere KeepsSigns x) :
    ∀ x ∈ e.flip.addends, Everywhere KeepsSigns x := by
  cases e with
  | sum s es =>
    exact forall_mem_sort_copyAll.2 fun e he => (everywhere_copy_iff keepsSigns_copy e).2 (h e he)
  | _ =>
    have hself := h _ (List.mem_singleton_self _)
    exact List.forall_mem_singleton.2
      (hself.withSign keepsSigns_copy (keepsSigns_sign hself.self (by rintro ⟨⟩) _))

/-- One step on a negated sum, whose addends may lose their signs. -/
theorem value_of_expandWithin_negatedSum {n : Nat} {es : List Expr} {x : Expansion}
    (h : expandWithin n (sum true es) = .ok x) (he : Everywhere PolynomialNode (sum true es))
    (hkeeps : ∀ e ∈ es, Everywhere KeepsSigns e) : Everywhere KeepsSigns x.result ∧
      value ρ x.result = -valueSum ρ es + 2 * valueSum ρ (lostAddends (sum true es)) := by
  cases n with
  | zero => cases h
  | succ n =>
    have hall {es : List Expr} {xs : List Expansion} (hxs : es.mapM (expandWithin n) = .ok xs)
        (hes : ∀ e ∈ es, Everywhere PolynomialNode e) (hkeeps : ∀ e ∈ es, Everywhere KeepsSigns e) :
        List.Forall₂ (fun e c => Multiplies e c ∧ Preserves ρ e c) es
        (xs.map Expansion.result) := by
      refine List.forall₂_map_right_iff.2 (forall₂_of_mem (mapM_eq_ok_iff.1 hxs)
        fun e he x hx => ?_)
      exact ⟨multiplies_of_expandWithin hx (hes e he),
        preserves_of_expandWithin hx (hes e he) (hkeeps e he)⟩
    obtain ⟨xs, hxs, h⟩ := bind_eq_ok h
    obtain ⟨ys, hys, h⟩ := bind_eq_ok h
    cases h
    have hcs := hall hxs (everywhere_sum_iff.1 he).2 hkeeps
    have hds := hall hys (forall_mem_of_forall₂ hcs fun e _ c hc => hc.1.free.polynomial)
      (forall_mem_of_forall₂ hcs fun e _ c hc => hc.2.keepsSigns)
    change Everywhere KeepsSigns (expandNegatedSum _ ys) ∧ value ρ (expandNegatedSum _ ys) = _
    rw [expandNegatedSum_eq, value_mkSum, valueSum_passSigns hcs hds]
    exact ⟨keepsSigns_passSigns hcs hds, rfl⟩

/-- The value of an expanded polynomial that loses signs at its root only: a negated sum gives all
its addends the opposite value, but for those that lose their signs. -/
theorem value_of_expandAll_of_addends {e r : Expr} (hr : e.expandAll = .ok r)
    (he : Everywhere PolynomialNode e) (hkeeps : ∀ x ∈ e.addends, Everywhere KeepsSigns x) :
    value ρ r = value ρ e + if e.negated then 2 * valueSum ρ e.lostAddends else 0 := by
  have hinside (hnode : e.shape = .sum → KeepsSigns e) : value ρ r = value ρ e :=
    value_of_expandAll hr he (everywhere_of_addends hkeeps hnode)
  cases e with
  | sum s es =>
    cases s with
    | false => exact (hinside fun _ => trivial).trans (add_zero _).symm
    | true =>
      exact value_of_expandAll_of_first hr he fun x hx =>
        value_of_expandWithin_negatedSum hx he hkeeps
  | _ =>
    rw [hinside (by rintro ⟨⟩)]
    simp [lostAddends, valueSum]

/-- Expanding a polynomial and its opposite, if signs are lost at their root only: the values are
opposite but for the addends that lose their signs, which count twice. -/
theorem value_expandAll_flip {e : Expr} (he : e.Everywhere PolynomialNode)
    (hkeeps : ∀ x ∈ e.addends, x.Everywhere KeepsSigns) :
    ∃ r r', e.expandAll = .ok r ∧ e.flip.expandAll = .ok r' ∧ ∀ ρ : Char → ℚ,
      value ρ r = value ρ e + (if e.negated then 2 * valueSum ρ e.lostAddends else 0) ∧
      value ρ r' = -value ρ r + 2 * valueSum ρ e.lostAddends := by
  have hflip : e.flip.Everywhere PolynomialNode :=
    he.withSign polynomialNode_copy (polynomialNode_sign he.self _)
  obtain ⟨r, hr⟩ := expandAll_polynomial he
  obtain ⟨r', hr'⟩ := expandAll_polynomial hflip
  refine ⟨r, r', hr, hr', fun ρ => ?_⟩
  have hvalue := value_of_expandAll_of_addends hr he hkeeps (ρ := ρ)
  have hvalue' := value_of_expandAll_of_addends hr' hflip (keepsSigns_addends_flip hkeeps) (ρ := ρ)
  rw [valueSum_lostAddends_flip, value_flip,
    show e.flip.negated = !e.negated from negated_withSign _ e] at hvalue'
  refine ⟨hvalue, ?_⟩
  rw [hvalue, hvalue']
  cases e.negated <;> simp

/-- An addend that loses its sign beside one that keeps it, since its square has to be unfolded
first. -/
theorem value_expandAll_flip_mixed :
    let a := sum true [symbol false 'x', symbol true 'y']
    let lost := product true [a, symbol true 'w']
    let e := sum false [product true [power false a (.ofNat 2), symbol false 'z'], lost,
      rational { negated := true, num := 3, den := 2 }]
    (e.Everywhere PolynomialNode ∧ (∀ x ∈ e.addends, x.Everywhere KeepsSigns) ∧
      e.lostAddends = [lost]) ∧
      ∃ r r', e.expandAll = .ok r ∧ e.flip.expandAll = .ok r' ∧ ∀ ρ : Char → ℚ,
        value ρ r = value ρ e + 0 ∧ value ρ r' = -value ρ r + 2 * valueSum ρ [lost] :=
  ⟨by decide, value_expandAll_flip (by decide) (by decide)⟩

/-- The opposite of `w - x * (y + z)` expands to `-w - x * y - x * z`. -/
theorem value_expandAll_flip_fails :
    let x := symbol false 'x'
    let y := symbol false 'y'
    let z := symbol false 'z'
    let e := sum false [product true [x, sum false [y, z]], symbol false 'w']
    let terms := sum false [product true [x, y], product true [x, z]]
    simplify e = .ok e ∧ e.Everywhere PolynomialNode ∧
      e.expandAll = .ok (sum false [symbol false 'w', terms]) ∧
      e.flip.expandAll = .ok (sum false [symbol true 'w', terms]) ∧
      ∃ ρ : Char → ℚ, value ρ (sum false [symbol true 'w', terms]) ≠
        -value ρ (sum false [symbol false 'w', terms]) := by
  refine ⟨by with_unfolding_all rfl, by decide, by with_unfolding_all rfl,
    by with_unfolding_all rfl, fun _ => 1, ?_⟩
  norm_num [value, valueSum, valueProduct]

end SymScript.Expr
