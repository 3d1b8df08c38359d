import SymScript.Proofs.PolynomialExpansion

/-!
# How far a polynomial is expanded

The loop stops when a step gives what its receiver has become.  The receiver of a step on a sum, or
on a product, has its children replaced by what they expand to; that is the result as well, if there
is nothing to distribute over and the children are in order.  Then the loop stops, although the
children may have steps to go: the square in `(x + y) ^ 2 * z` is unfolded and never multiplied out.

A polynomial is expanded completely if one round suffices for all its parts: the sums in its
products have no sums in them, and its powers no sums in their bases.  A power at the root may be
one of such sums, since it is not what its base has become.  Any polynomial is expanded completely
by calling the loop again.
-/

namespace SymScript.Expr

/-! ### Nodes -/

/-- A node that leaves nothing to expand. -/
def CompleteNode : Expr → Prop
  | product _ es => ∀ e ∈ es, e.shape ≠ .sum
  | power _ b (rational q) => b.shape = .sum → ¬ (2 ≤ q.num ∧ q.den = 1 ∧ q.negated = false)
  | _ => True

instance : DecidablePred CompleteNode
  | product _ es => inferInstanceAs (Decidable (∀ e ∈ es, e.shape ≠ .sum))
  | power _ b (rational q) =>
    inferInstanceAs (Decidable (b.shape = .sum → ¬ (2 ≤ q.num ∧ q.den = 1 ∧ q.negated = false)))
  | power _ _ (symbol ..) | power _ _ (sum ..) | power _ _ (product ..) | power _ _ (power ..) |
    rational _ | symbol .. | sum .. => inferInstanceAs (Decidable True)

/-- No sum in the sum, and none in the base of the power. -/
def ThinNode : Expr → Prop
  | sum _ es => ∀ e ∈ es, SumFree e
  | power _ b _ => SumFree b
  | _ => True

instance : DecidablePred ThinNode
  | sum _ es => inferInstanceAs (Decidable (∀ e ∈ es, SumFree e))
  | power _ b _ => inferInstanceAs (Decidable (SumFree b))
  | rational _ | symbol .. | product .. => inferInstanceAs (Decidable True)

/-- A product that one round multiplies out, or no power of a sum. -/
def FlatNode : Expr → Prop
  | product s es => Everywhere ThinNode (product s es)
  | power _ b _ => SumFree b
  | _ => True

instance : DecidablePred FlatNode
  | product s es => inferInstanceAs (Decidable (Everywhere ThinNode (product s es)))
  | power _ b _ => inferInstanceAs (Decidable (SumFree b))
  | rational _ | symbol .. | sum .. => inferInstanceAs (Decidable True)

theorem completeNode_copy (e : Expr) : CompleteNode (copy e) ↔ CompleteNode e := by
  cases e with
  | rational | symbol | sum => exact Iff.rfl
  | product s es =>
    rw [copy, CompleteNode, CompleteNode, forall_mem_sort_copyAll]
    exact forall₂_congr fun e _ => shape_copy_ne_sum e
  | power s b x =>
    cases x with
    | rational q =>
      change ((copy b).shape = .sum → _) ↔ _
      rw [shape_copy]
      rfl
    | _ => exact Iff.rfl

theorem thinNode_copy (e : Expr) : ThinNode (copy e) ↔ ThinNode e := by
  cases e with
  | rational | symbol | product => exact Iff.rfl
  | sum s es =>
    rw [copy, ThinNode, ThinNode, forall_mem_sort_copyAll]
    exact forall₂_congr fun e _ => sumFree_copy e
  | power s b x => exact sumFree_copy b

theorem flatNode_copy (e : Expr) : FlatNode (copy e) ↔ FlatNode e := by
  cases e with
  | rational | symbol | sum => exact Iff.rfl
  | product s es => exact everywhere_copy_iff thinNode_copy (product s es)
  | power s b x => exact sumFree_copy b

theorem completeNode_sign {e : Expr} (h : CompleteNode e) (s : Bool) : CompleteNode (e.sign s) := by
  cases e with
  | power t b x => cases x <;> exact h
  | _ => exact h

theorem flatNode_sign {e : Expr} (h : FlatNode e) (s : Bool) : FlatNode (e.sign s) := by
  cases e with
  | product t es =>
    exact everywhere_product_iff.2 ⟨trivial,
      (everywhere_product_iff.1 (show Everywhere _ _ from h)).2⟩
  | _ => exact h

/-- A node that leaves nothing to expand, and stays so in the rounds to come. -/
def ExpandedNode (e : Expr) : Prop := CompleteNode e ∧ FlatNode e

theorem expandedNode_copy (e : Expr) : ExpandedNode (copy e) ↔ ExpandedNode e :=
  and_congr (completeNode_copy e) (flatNode_copy e)

theorem expandedNode_sign {e : Expr} (h : ExpandedNode e) (s : Bool) : ExpandedNode (e.sign s) :=
  ⟨completeNode_sign h.1 s, flatNode_sign h.2 s⟩

/-- What is multiplied out and has no sums is expanded. -/
theorem expanded_of_sumFree {e : Expr} (hfree : Everywhere FreeNode e) (hsum : SumFree e) :
    Everywhere (fun n => ExpandedNode n ∧ ThinNode n) e := by
  induction e using children_induction with
  | rational q => exact everywhere_rational_iff.2 ⟨⟨trivial, trivial⟩, trivial⟩
  | symbol s c => exact everywhere_symbol_iff.2 ⟨⟨trivial, trivial⟩, trivial⟩
  | sum s es => exact absurd rfl hsum.self
  | product s es ih =>
    have hsums := (everywhere_product_iff.1 hsum).2
    have hall : ∀ e ∈ es, Everywhere (fun n => ExpandedNode n ∧ ThinNode n) e :=
      fun e he => ih e he ((everywhere_product_iff.1 hfree).2 e he) (hsums e he)
    refine everywhere_product_iff.2 ⟨⟨⟨fun e he => (hsums e he).self, ?_⟩, trivial⟩, hall⟩
    exact everywhere_product_iff.2 ⟨trivial, fun e he n hn => (hall e he n hn).2⟩
  | power s b x => exact absurd rfl hfree.self.2

/-- A sum of addends without sums and powers is multiplied out. -/
theorem expanded_of_addends {r : Expr} (hfree : Everywhere FreeNode r)
    (h : ∀ x ∈ r.addends, SumFree x) : Everywhere (fun n => ExpandedNode n ∧ ThinNode n) r := by
  refine everywhere_of_addends (fun x hx => expanded_of_sumFree (hfree.of_mem_addends hx) (h x hx))
    ?_
  intro hsum
  cases r with
  | sum s es => exact ⟨⟨trivial, trivial⟩, h⟩
  | _ => cases hsum

/-! ### One round -/

theorem sumFree_addends_withSign {e : Expr} (h : ∀ x ∈ e.addends, SumFree x) (s : Bool) :
    ∀ x ∈ (e.withSign s).addends, SumFree x := by
  cases e with
  | sum t es => exact forall_mem_sort_copyAll.2 fun e he => (sumFree_copy e).2 (h e he)
  | _ =>
    have hself := (h _ (List.mem_singleton_self _)).withSign s
    exact fun x hx => Everywhere.of_mem_addends hself hx

/-- What a step makes of a polynomial whose parts take one round. -/
structure OneRound (e r : Expr) : Prop where
  addends : Everywhere ThinNode e → ∀ x ∈ r.addends, SumFree x
  expanded : Everywhere FlatNode e → Everywhere ExpandedNode r
  flat_of_power : ∀ s b x, e = power s b x → Everywhere ThinNode b → Everywhere FlatNode r

section OneRound

variable {es cs ds : List Expr} {s : Bool}

/-- One round suffices for a sum if it does for its addends. -/
theorem oneRound_mkSum (hcs : List.Forall₂ (fun e c => Multiplies e c ∧ OneRound e c) es cs) :
    OneRound (sum false es) (mkSum false cs) where
  addends hthin := by
    refine forall_mem_sort_copyAll.2 (forall_mem_of_forall₂ hcs fun e he c hc =>
      (sumFree_copy c).2 ?_)
    exact hc.1.sumFree (hthin.self e he)
  expanded hflat := by
    refine (everywhere_mkSum_iff expandedNode_copy).2 ⟨⟨trivial, trivial⟩, ?_⟩
    exact forall_mem_of_forall₂ hcs fun e he c hc =>
      hc.2.expanded ((everywhere_sum_iff.1 hflat).2 e he)
  flat_of_power := by rintro _ _ _ ⟨⟩

/-- One round suffices for a negated sum if it does for its addends. -/
theorem oneRound_passSigns (hcs : List.Forall₂ (fun e c => Multiplies e c ∧ OneRound e c) es cs)
    (hds : List.Forall₂ (fun c d => Multiplies c d ∧ OneRound c d) cs ds) :
    OneRound (sum true es) (mkSum false (passSigns cs ds)) where
  addends hthin := by
    have hsums : ∀ c ∈ cs, SumFree c :=
      forall_mem_of_forall₂ hcs fun e he c hc => hc.1.sumFree (hthin.self e he)
    refine forall_mem_sort_copyAll.2 (forall_mem_passSigns hds fun c hc d hd =>
      (sumFree_copy _).2 ?_)
    exact (hd.1.sumFree (hsums c hc)).withSign _
  expanded hflat := by
    have hflats : ∀ c ∈ cs, Everywhere FlatNode c := forall_mem_of_forall₂ hcs fun e he c hc n hn =>
      (hc.2.expanded ((everywhere_sum_iff.1 hflat).2 e he) n hn).2
    refine (everywhere_mkSum_iff expandedNode_copy).2 ⟨⟨trivial, trivial⟩, ?_⟩
    refine forall_mem_passSigns hds fun c hc d hd => ?_
    have hd := hd.2.expanded (hflats c hc)
    exact hd.withSign expandedNode_copy (expandedNode_sign hd.self _)
  flat_of_power := by rintro _ _ _ ⟨⟩

/-- One round suffices for a product if it does for its factors. -/
theorem oneRound_distributeAll (hcs : List.Forall₂ (fun e c => Multiplies e c ∧ OneRound e c) es cs)
    (hmul : Multiplies (product s es) ((distributeAll cs).withSign s)) :
    OneRound (product s es) ((distributeAll cs).withSign s) := by
  have haddends (hthin : Everywhere ThinNode (product s es)) :
      ∀ x ∈ ((distributeAll cs).withSign s).addends, SumFree x := by
    refine sumFree_addends_withSign (forall_mem_addends_distributeAll ?_ (fun x y hx hy => ?_) ?_) s
    · exact everywhere_rational_iff.2 (by rintro ⟨⟩)
    · exact sumFree_mkProduct (forall_mem_pair.2 ⟨hx, hy⟩)
    · exact forall_mem_of_forall₂ hcs fun e he c hc =>
        hc.2.addends ((everywhere_product_iff.1 hthin).2 e he)
  exact ⟨haddends, fun hflat n hn => (expanded_of_addends hmul.free (haddends hflat.self) n hn).1,
    by rintro _ _ _ ⟨⟩⟩

/-- A power of a sum is a product of sums after one round, and those are multiplied out in the
next. -/
theorem oneRound_power {b c : Expr} {q : Fraction} (hc : Multiplies b c ∧ OneRound b c)
    (hmul : Multiplies (power s b (rational q))
      ((mkProduct false (List.replicate q.num c)).withSign s)) :
    OneRound (power s b (rational q)) ((mkProduct false (List.replicate q.num c)).withSign s) := by
  have hsum (hb : SumFree b) : SumFree ((mkProduct false (List.replicate q.num c)).withSign s) :=
    hmul.sumFree (everywhere_power_iff.2 ⟨by rintro ⟨⟩, hb,
      everywhere_rational_iff.2 (by rintro ⟨⟩)⟩)
  refine ⟨fun hthin x hx => (hsum hthin.self).of_mem_addends hx,
    fun hflat n hn => (expanded_of_sumFree hmul.free (hsum hflat.self) n hn).1, ?_⟩
  rintro _ _ _ ⟨⟩ hthin
  have hexpanded := expanded_of_addends hc.1.free (hc.2.addends hthin)
  have hall {Q : Expr → Prop} (hQ : Q c) : ∀ e ∈ List.replicate q.num c, Q e :=
    List.forall_mem_replicate.2 (.inr hQ)
  have hnode : FlatNode (product false (List.replicate q.num c)) :=
    everywhere_product_iff.2 ⟨trivial, hall fun n hn => (hexpanded n hn).2⟩
  have hproduct := (everywhere_mkProduct_iff flatNode_copy).2
    ⟨hnode, hall fun n hn => (hexpanded n hn).1.2⟩
  exact hproduct.withSign flatNode_copy (flatNode_sign hproduct.self s)

end OneRound

/-- One round does all that it should, by induction on the depth. -/
theorem oneRound_of_expandWithin {n : Nat} {e : Expr} {x : Expansion} (h : expandWithin n e = .ok x)
    (he : Everywhere PolynomialNode e) : OneRound e x.result := by
  refine (polynomial_induction (P := OneRound) ?rational ?symbol ?sum ?negatedSum ?product
    ?power h he).2
  case rational =>
    exact fun q => ⟨fun _ => List.forall_mem_singleton.2 (everywhere_rational_iff.2 (by rintro ⟨⟩)),
      fun _ => everywhere_rational_iff.2 ⟨trivial, trivial⟩, by rintro _ _ _ ⟨⟩⟩
  case symbol =>
    exact fun s c => ⟨fun _ => List.forall_mem_singleton.2 (everywhere_symbol_iff.2 (by rintro ⟨⟩)),
      fun _ => everywhere_symbol_iff.2 ⟨trivial, trivial⟩, by rintro _ _ _ ⟨⟩⟩
  case sum => exact fun es cs hcs => oneRound_mkSum hcs
  case negatedSum => exact fun es cs ds hcs hds => oneRound_passSigns hcs hds
  case product => exact fun s es cs hcs hmul _ => oneRound_distributeAll hcs hmul
  case power => exact fun s b q c _ hc hround hmul => oneRound_power ⟨hc, hround⟩ hmul

/-! ### The last step -/

/-- The receiver keeps its shape. -/
theorem shape_receiver {n : Nat} {e : Expr} {x : Expansion} (h : expandWithin n e = .ok x) :
    x.receiver.shape = e.shape := by
  refine expandWithin_induction ?_ ?_ ?_ ?_ ?_ ?_ ?_ h <;> intros <;> rfl

/-- A product that is what its factors have become has no sum among them. -/
theorem completeNode_of_last {e r : Expr} (he : Everywhere PolynomialNode e)
    (h : e.expand = .ok ⟨r, r⟩) : CompleteNode r := by
  have hmul : Multiplies e r := multiplies_of_expandWithin h he
  have hshape : r.shape = e.shape := shape_receiver h
  cases e with
  | product s es =>
    obtain ⟨n, hn⟩ : ∃ n, reach (product s es) = n + 1 := ⟨_, rfl⟩
    rw [expand, hn] at h
    obtain ⟨xs, hxs, h⟩ := bind_eq_ok h
    obtain ⟨-, rfl⟩ := Expansion.mk.inj (Except.ok.inj h)
    intro c hc hsum
    obtain ⟨x, hx, rfl⟩ := List.mem_map.1 hc
    obtain ⟨e, hmem, hex⟩ := exists_of_forall₂ (mapM_eq_ok_iff.1 hxs).flip hx
    have hpart := multiplies_of_expandWithin hex ((everywhere_product_iff.1 he).2 e hmem)
    cases hmul.shape_iff.2 (spreads_product_iff.2 ⟨e, hmem, hpart.shape_iff.1 hsum⟩)
  | power => exact absurd hshape hmul.free.self.2
  | _ =>
    cases r with
    | product | power => cases hshape
    | _ => trivial

/-- A polynomial whose parts take one round; a power at the root takes one more. -/
def TakesOneRound : Expr → Prop
  | power _ b _ => Everywhere ThinNode b
  | e => Everywhere FlatNode e

instance : DecidablePred TakesOneRound
  | power _ b _ => inferInstanceAs (Decidable (Everywhere ThinNode b))
  | rational q => inferInstanceAs (Decidable (Everywhere FlatNode (rational q)))
  | symbol s c => inferInstanceAs (Decidable (Everywhere FlatNode (symbol s c)))
  | sum s es => inferInstanceAs (Decidable (Everywhere FlatNode (sum s es)))
  | product s es => inferInstanceAs (Decidable (Everywhere FlatNode (product s es)))

/-- What takes one round is flat after it. -/
theorem OneRound.flat {e r : Expr} (h : OneRound e r) (he : TakesOneRound e) :
    Everywhere FlatNode r := by
  cases e with
  | power s b x => exact h.flat_of_power s b x rfl he
  | _ => exact fun n hn => (h.expanded he n hn).2

/-- What takes one round is expanded completely. -/
theorem complete_of_takesOneRound {e r : Expr} (he : Everywhere PolynomialNode e)
    (h : TakesOneRound e) (hr : e.expandAll = .ok r) : Everywhere CompleteNode r := by
  have hflat {e : Expr} (h : Everywhere FlatNode e) (hne : e.shape ≠ .power) : TakesOneRound e := by
    cases e with
    | power => exact absurd rfl hne
    | _ => exact h
  have hstep (t : Expr) (x : Expansion) (ht : Everywhere PolynomialNode t ∧ TakesOneRound t)
      (hx : t.expand = .ok x) : Everywhere PolynomialNode x.result ∧ TakesOneRound x.result := by
    have hmul := multiplies_of_expandWithin hx ht.1
    exact ⟨hmul.free.polynomial,
      hflat ((oneRound_of_expandWithin hx ht.1).flat ht.2) hmul.free.self.2⟩
  obtain ⟨t, ht, hlast⟩ := expandSteps_eq_ok hstep hr ⟨he, h⟩
  have hround : OneRound t r := oneRound_of_expandWithin hlast ht.1
  have hmul : Multiplies t r := multiplies_of_expandWithin hlast ht.1
  have hshape : r.shape = t.shape := shape_receiver hlast
  cases t with
  | power => exact absurd hshape hmul.free.self.2
  | _ => exact fun n hn => (hround.expanded ht.2 n hn).1

/-! ### Calling the loop again -/

/-- Calls the loop on the expression, and on what it returns, so many times. -/
def expandTimes : Nat → Expr → Except AlgebraError Expr
  | 0, e => .ok e
  | k + 1, e => e.expandAll >>= expandTimes k

/-- Without powers, what has no step to go is multiplied out. -/
theorem complete_of_rounds {e : Expr} (hfree : Everywhere FreeNode e) (h : rounds e = 0) :
    Everywhere CompleteNode e := by
  induction e using children_induction with
  | rational q => exact everywhere_rational_iff.2 trivial
  | symbol s c => exact everywhere_symbol_iff.2 trivial
  | sum s es ih =>
    obtain rfl : s = false := by
      cases s with
      | false => rfl
      | true => exact absurd h (Nat.succ_ne_zero _)
    refine everywhere_sum_iff.2 ⟨trivial,
      fun e he => ih e he ((everywhere_sum_iff.1 hfree).2 e he) ?_⟩
    exact Nat.le_zero.1 (roundsAll_le_iff.1 (Nat.le_of_eq h) e he)
  | product s es ih =>
    obtain ⟨-, hfactors⟩ := factors_of_settled h
    have hzero (e : Expr) (he : e ∈ es) := rounds_eq_zero_of_factor (hfactors e he)
    refine everywhere_product_iff.2 ⟨fun e he => (hzero e he).2, fun e he => ?_⟩
    exact ih e he ((everywhere_product_iff.1 hfree).2 e he) (hzero e he).1
  | power s b x => exact absurd rfl hfree.self.2

/-- Every call of the loop brings an expression nearer to its end. -/
theorem expandAll_step {e : Expr} (he : Everywhere PolynomialNode e) :
    ∃ r, e.expandAll = .ok r ∧ Everywhere FreeNode r ∧ CompleteNode r ∧
      rounds r ≤ rounds e - 1 := by
  obtain ⟨r, hr⟩ := expandAll_polynomial he
  have hstep (t : Expr) (x : Expansion) (ht : Everywhere PolynomialNode t ∧ rounds t ≤ rounds e)
      (hx : t.expand = .ok x) : Everywhere PolynomialNode x.result ∧
      rounds x.result ≤ rounds e := by
    have hlt := (eases_of_expandWithin hx).rounds_lt
    exact ⟨(multiplies_of_expandWithin hx ht.1).free.polynomial, by omega⟩
  obtain ⟨t, ht, hlast⟩ := expandSteps_eq_ok hstep hr ⟨he, le_rfl⟩
  have hlt : rounds r ≤ rounds t - 1 := (eases_of_expandWithin hlast).rounds_lt
  exact ⟨r, hr, (multiplies_of_expandWithin hlast ht.1).free,
    completeNode_of_last ht.1 hlast, by omega⟩

/-- Enough calls of the loop expand an expression completely. -/
theorem expandTimes_complete {k : Nat} {e : Expr} (he : Everywhere PolynomialNode e)
    (hk : rounds e ≤ k) : ∃ r, expandTimes (k + 1) e = .ok r ∧ Everywhere CompleteNode r := by
  induction k generalizing e with
  | zero =>
    obtain ⟨r, hr, hfree, -, hlt⟩ := expandAll_step he
    refine ⟨r, ?_, complete_of_rounds hfree (by omega)⟩
    rw [expandTimes, hr]
    rfl
  | succ k ih =>
    obtain ⟨r, hr, hfree, -, hlt⟩ := expandAll_step he
    obtain ⟨t, ht, hcomplete⟩ := ih hfree.polynomial (e := r) (by omega)
    refine ⟨t, ?_, hcomplete⟩
    rw [expandTimes, hr]
    exact ht

/-- Expanding a polynomial leaves no powers, and no product of sums at the root.  Below the root it
is complete if the parts of the polynomial take one round, and in any case if it is repeated. -/
theorem expandAll_complete {e : Expr} (he : e.Everywhere PolynomialNode) :
    (∃ r, e.expandAll = .ok r ∧ PowerFree r ∧ CompleteNode r ∧
      (TakesOneRound e → r.Everywhere CompleteNode)) ∧
    ∀ k, 4 * e.size ≤ k → ∃ r, expandTimes k e = .ok r ∧ r.Everywhere CompleteNode := by
  constructor
  · obtain ⟨r, hr, hfree, hnode, -⟩ := expandAll_step he
    exact ⟨r, hr, fun n hn => (hfree n hn).2, hnode, fun h => complete_of_takesOneRound he h hr⟩
  · intro k hk
    have hsize := factorRounds_add_three_le e
    have hrounds := (rounds_le_factorRounds e).1
    obtain ⟨k, rfl⟩ : ∃ m, k = m + 1 := ⟨k - 1, by omega⟩
    exact expandTimes_complete he (by omega)

/-- A cube of a difference. -/
theorem expandAll_complete_cube :
    let e := power true (sum false [symbol true 'x', product false [.ofNat 2, symbol false 'y']])
      (.ofNat 3)
    (e.Everywhere PolynomialNode ∧ TakesOneRound e ∧ 4 * e.size ≤ 40) ∧
      (∃ r, e.expandAll = .ok r ∧ PowerFree r ∧ r.Everywhere CompleteNode) ∧
      ∃ r, expandTimes 40 e = .ok r ∧ r.Everywhere CompleteNode := by
  refine ⟨by decide, ?_, (expandAll_complete (by decide)).2 40 (by decide)⟩
  obtain ⟨r, hr, hfree, -, hcomplete⟩ := (expandAll_complete (e := power true
    (sum false [symbol true 'x', product false [.ofNat 2, symbol false 'y']]) (.ofNat 3))
    (by decide)).1
  exact ⟨r, hr, hfree, hcomplete (by decide)⟩

/-- The square in `(x + y) ^ 2 * z` is unfolded, and left there. -/
theorem expandAll_complete_fails :
    let a := sum false [symbol false 'x', symbol false 'y']
    let e := product false [power false a (.ofNat 2), symbol false 'z']
    let r := product false [product false [a, a], symbol false 'z']
    simplify e = .ok e ∧ e.Everywhere PolynomialNode ∧ e.expandAll = .ok r ∧
      ¬ r.Everywhere CompleteNode :=
  ⟨by with_unfolding_all rfl, by decide, by with_unfolding_all rfl, by decide⟩

end SymScript.Expr
