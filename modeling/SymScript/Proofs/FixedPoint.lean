import SymScript.Proofs.Collect
import SymScript.Proofs.Depth

/-!
# Stable expressions are left as they are

Simplifying a stable expression gives it back, as soon as the bound on the depth of the calls is
above its mass.  Collecting takes a stable sum or product apart and puts the same node together
again. Normal forms are stable.
-/

namespace SymScript.Expr

/-! ### Lists of results -/

/-- Where every member stays as it is, so does the list. -/
theorem mapM_eq_self {f : Expr → Except AlgebraError Expr} {es : List Expr}
    (h : ∀ e ∈ es, f e = .ok e) : es.mapM f = .ok es :=
  mapM_eq_ok_iff.2 (List.forall₂_same.2 h)

theorem mapM_map_eq_ok {α β : Type} {f : β → Except AlgebraError α} {g : α → β} {as : List α}
    (h : ∀ a ∈ as, f (g a) = .ok a) : (as.map g).mapM f = .ok as :=
  mapM_eq_ok_iff.2 (List.forall₂_map_left_iff.2 (List.forall₂_same.2 h))

theorem rational?_of_other {e : Expr} (h : e.isNumber = false) : e.rational? = none := by
  simpa [isNumber] using h

/-- A list that has more than numbers in it is no list of numbers. -/
theorem mapM_rational?_eq_none (es : List Expr) (h : others es ≠ []) :
    es.mapM rational? = none := by
  induction es with
  | nil => exact absurd rfl h
  | cons e es ih =>
    rw [List.mapM_cons]
    cases he : e.isNumber with
    | false => rw [rational?_of_other he]; rfl
    | true =>
      obtain ⟨q, rfl⟩ := isNumber_iff.1 he
      rw [ih h]
      rfl

theorem numbers?_eq_none {es : List Expr} (h : others es ≠ []) : numbers? es = none := by
  cases es with
  | nil => rfl
  | cons e es =>
    rw [numbers?]
    cases he : e.isNumber with
    | false => rw [rational?_of_other he]; rfl
    | true =>
      obtain ⟨q, rfl⟩ := isNumber_iff.1 he
      rw [mapM_rational?_eq_none es h]
      rfl

/-- A list without anything else is the list of its numbers. -/
theorem eq_map_numbers {es : List Expr} (h : others es = []) : es = (numbers es).map rational := by
  induction es with
  | nil => rfl
  | cons e es ih =>
    cases he : e.isNumber with
    | true =>
      obtain ⟨q, rfl⟩ := isNumber_iff.1 he
      exact congrArg _ (ih h)
    | false =>
      rw [others_cons_of_other he] at h
      cases h

theorem numbers?_map_rational (q : Fraction) (qs : List Fraction) :
    numbers? ((q :: qs).map rational) = some (q, qs) := by
  have hmapM : (qs.map rational).mapM rational? = some qs := by
    induction qs with
    | nil => rfl
    | cons q qs ih => simp [List.mapM_cons, ih, rational?]
  simp [numbers?, hmapM, rational?]

/-- Where the numbers are not all there is, something else is found, unless there is nothing. -/
theorem others_ne_nil_of_numbers? {es : List Expr} (hne : es ≠ []) (h : numbers? es = none) :
    others es ≠ [] := by
  intro ho
  have hes := eq_map_numbers ho
  cases hq : numbers es with
  | nil =>
    rw [hq] at hes
    exact hne hes
  | cons q qs =>
    rw [hes, hq, numbers?_map_rational] at h
    cases h

/-! ### Putting nodes together -/

/-- A sum of members that are their own copies only sorts them. -/
theorem mkSum_eq {es : List Expr} (h : ∀ e ∈ es, copy e = e) (s : Bool) :
    mkSum s es = .sum s (sort es) := by
  rw [mkSum, copyAll_eq h]

/-- A product of members that are their own copies only sorts them. -/
theorem mkProduct_eq {es : List Expr} (h : ∀ e ∈ es, copy e = e) (s : Bool) :
    mkProduct s es = .product s (sort es) := by
  rw [mkProduct, copyAll_eq h]

theorem mkPower_eq {b x : Expr} (hb : copy b = b) (hx : copy x = x) (s : Bool) :
    mkPower s b x = .power s b x := by
  rw [mkPower, hb, hx]

/-- Two or more addends are joined to a sum. -/
theorem joinSum_of_two_le {es : List Expr} (h : 2 ≤ es.length) (s : Bool) :
    joinSum s es = mkSum s es := by
  match es with
  | [] => exact absurd h (by simp)
  | [_] => exact absurd h (by simp)
  | _ :: _ :: _ => rfl

/-- Two or more factors are joined to a product. -/
theorem joinProduct_of_two_le {es : List Expr} (h : 2 ≤ es.length) (s : Bool) :
    joinProduct s es = mkProduct s es := by
  match es with
  | [] => exact absurd h (by simp)
  | [_] => exact absurd h (by simp)
  | _ :: _ :: _ => rfl

section Shaped

variable {number : Fraction → Prop} {raise : Expr → Expr → Prop} {t : Bool} {es : List Expr}

/-- Joining the addends of a sum that is in shape gives it back. -/
theorem Shaped.joinSum_eq (h : Shaped number raise (sum t es)) (s : Bool) :
    joinSum s es = .sum s es := by
  obtain ⟨hes, hl, ho, -⟩ := shaped_sum_iff.1 h
  rw [joinSum_of_two_le hl, mkSum_eq fun e he => (hes e he).copy_eq, ho.sort_eq]

/-- Joining the factors of a product that is in shape gives it back. -/
theorem Shaped.joinProduct_eq (h : Shaped number raise (product t es)) (s : Bool) :
    joinProduct s es = .product s es := by
  obtain ⟨hes, hl, ho, -⟩ := shaped_product_iff.1 h
  rw [joinProduct_of_two_le hl, mkProduct_eq fun e he => (hes e he).copy_eq, ho.sort_eq]

/-- Joining the factors of an expression in shape gives it back. -/
theorem Shaped.joinProduct_factors {f : Expr} (h : Shaped number raise f) (s : Bool) :
    joinProduct s f.factors = f.sign s := by
  by_cases hp : f.shape = .product
  · cases f <;> cases hp
    exact h.joinProduct_eq s
  · rw [factors_of_ne_product hp]
    exact h.withSign_eq s

end Shaped

theorem negated_of_mem_unsigned {es : List Expr} : ∀ e ∈ unsigned es, e.negated = false :=
  List.forall_mem_map.2 fun e _ => sign_negated false (copy e)

/-- Taking signs away makes nothing a number. -/
theorem others_unsigned_ne_nil {es : List Expr} (h : others es ≠ []) :
    others (unsigned es) ≠ [] := by
  obtain ⟨e, he⟩ := List.exists_mem_of_ne_nil _ h
  obtain ⟨hm, hnum⟩ := mem_others.1 he
  refine List.ne_nil_of_mem (mem_others.2 ⟨List.mem_map_of_mem hm, ?_⟩)
  rw [withSign, sign_isNumber]
  cases e <;> first | rfl | cases hnum

theorem unsigned_eq {es : List Expr} (h : ∀ e ∈ es, copy e = e) :
    unsigned es = es.map (Expr.sign false) :=
  List.map_congr_left fun e he => by rw [withSign, h e he]

/-! ### Collecting factors -/

variable {simp : Expr → Except AlgebraError Expr}

/-- A base with one exponent is the factor that it came from. -/
theorem Stable.ofBase_eq {e : Expr} (h : Stable e) (hn : e.isNumber = false)
    (hs : e.negated = false) : ofBase simp (e.base, [e.exponent]) = .ok e := by
  cases e with
  | rational => cases hn
  | symbol => rfl
  | sum => rfl
  | product => rfl
  | power s b x =>
    obtain ⟨hb, hx, hf⟩ := shaped_power_iff.1 h
    obtain rfl : s = false := hs
    have hmk := mkPower_eq hb.copy_eq hx.copy_eq false
    cases x with
    | rational q =>
      obtain ⟨hz, ho⟩ := hf.noUnit q rfl
      simp only [ofBase, joinExponents, exponent, base, bind, Except.bind, hz, ho,
        Bool.false_eq_true, if_false, hmk]
      rfl
    | _ => simp only [ofBase, joinExponents, exponent, base, bind, Except.bind, hmk]; rfl

/-- Without nested products all factors but the numbers are proper. -/
theorem properFactors_eq {es : List Expr} (h : ∀ e ∈ es, e.shape ≠ .product) :
    properFactors es = others es :=
  List.filter_eq_self.2 fun e he => by simpa using h e (mem_others.1 he).1

/-- Without nested products nothing is opened. -/
theorem flatMap_openedProduct_eq {es : List Expr} (h : ∀ e ∈ es, e.shape ≠ .product) :
    es.flatMap openedProduct = [] := by
  refine List.flatMap_eq_nil_iff.2 fun e he => ?_
  have := h e he
  cases e <;> first | rfl | exact absurd rfl this

theorem one_mul_of_unsigned {q : Fraction} (hq : q.negated = false) : Fraction.ofNat 1 * q = q :=
  (unit_mul false hq).trans (Fraction.ext hq.symm rfl rfl)

/-- At most one number, other than zero and one, is its own product. -/
theorem coefficientFactor_eq {qs : List Fraction} (hl : qs.length ≤ 1)
    (hs : ∀ q ∈ qs, q.negated = false) (hu : ∀ q ∈ qs, q.isZero = false ∧ q.isOne = false) :
    (qs.foldl (· * ·) (Fraction.ofNat 1)).isZero = false ∧
      coefficientFactor qs = qs.map rational := by
  match qs with
  | [] => exact ⟨rfl, rfl⟩
  | [q] =>
    have hq := one_mul_of_unsigned (hs q (List.mem_singleton_self q))
    obtain ⟨hz, ho⟩ := hu q (List.mem_singleton_self q)
    simp only [coefficientFactor, List.foldl_cons, List.foldl_nil, hq, hz, ho, Bool.false_eq_true,
      if_false, List.map_cons, List.map_nil, and_self]
  | _ :: _ :: _ => exact absurd hl (by simp)

/-- The factors of a product in which nothing is left to collect are found again. -/
theorem ProductForm.collectProduct_eq {es : List Expr} (h : ProductForm es)
    (hes : ∀ e ∈ es, Stable e) (ho : others es ≠ []) (s : Bool) :
    collectProduct simp s es = .ok (joinProduct s ((numbers es).map rational ++ others es)) := by
  have hbases : ((others es).map fun e => (e.base, [e.exponent])).mapM (ofBase simp) =
      .ok (others es) :=
    mapM_map_eq_ok fun e he => (hes e (mem_others.1 he).1).ofBase_eq (mem_others.1 he).2
      (h.unsigned e (mem_others.1 he).1)
  have hnodup : (((others es).map fun e => (e.base, [e.exponent])).map Prod.fst).Nodup := by
    rw [List.map_map]
    exact h.distinct
  have hempty : (others es).isEmpty = false := by simpa using ho
  obtain ⟨hz, hfactor⟩ := coefficientFactor_eq h.oneNumber
    (fun q hq => h.unsigned _ (mem_numbers.1 hq)) h.noUnit
  rw [collectProduct_eq_bind, flatMap_openedProduct_eq h.noProduct, bases,
    properFactors_eq h.noProduct, gatherAll_of_nodup _ hnodup]
  simp only [hbases, bind, Except.bind, List.nil_append, hempty, hz, hfactor, Bool.false_eq_true,
    if_false]

/-- Factors without signs do not change the sign of a product. -/
theorem productSign_eq {es : List Expr} (h : ∀ e ∈ es, e.negated = false) (s : Bool) :
    productSign s es = s := by
  induction es with
  | nil => rfl
  | cons e es ih =>
    rw [productSign, List.foldl_cons, h e List.mem_cons_self, Bool.bne_false]
    exact ih fun a ha => h a (List.mem_cons_of_mem e ha)

/-- A number is collected with the factors of a bare factor. -/
theorem Core.collectProduct_eq {f : Expr} (h : Core f) (hf : Stable f) {q : Fraction}
    (hq : q.negated = false) (s : Bool) : collectProduct simp s [rational q, f] =
      if q.isZero then .ok (.ofNat 0)
      else if q.isOne then .ok (f.sign s)
      else .ok (joinProduct s (rational q :: f.factors)) := by
  have hempty : f.factors.isEmpty = false := by simpa using hf.factors_ne_nil
  have hcoeff : (numbers [rational q, f]).foldl (· * ·) (.ofNat 1) = q := by
    rw [numbers_cons_rational, numbers_cons_of_other h.noNumber]
    exact one_mul_of_unsigned hq
  have hparts : [rational q, f].flatMap openedProduct = openedProduct f := by
    rw [List.flatMap_cons, List.flatMap_singleton]
    rfl
  have hproper : bases [rational q, f] = bases [f] := rfl
  have hfactors : openedProduct f ++ properFactors [f] = f.factors := by
    have hn := h.noNumber
    cases f with
    | rational => cases hn
    | product => exact List.append_nil _
    | _ => rfl
  have hbases : (bases [f]).mapM (ofBase simp) = .ok (properFactors [f]) := by
    have hone : properFactors [f] = [] ∨ properFactors [f] = [f] := by
      have hn := h.noNumber
      cases f <;> first | exact .inl rfl | exact .inr rfl
    rcases hone with he | he
    · rw [bases, he]
      rfl
    · rw [bases, he, gatherAll_of_nodup]
      · refine mapM_map_eq_ok (g := fun e : Expr => (e.base, [e.exponent])) fun e he => ?_
        rw [List.mem_singleton.1 he]
        exact hf.ofBase_eq h.noNumber h.unsigned
      · exact List.nodup_singleton _
  rw [collectProduct_eq_bind]
  simp only [coefficientFactor, hcoeff, hparts, hproper, hbases, bind, Except.bind, hfactors,
    hempty, Bool.false_eq_true, if_false]
  by_cases hone : q.isOne = true
  · simp only [hone, if_true, List.nil_append, hf.joinProduct_factors]
  · simp only [hone, Bool.false_eq_true, if_false, List.singleton_append]

/-! ### Collecting addends -/

/-- A coefficient and a factor that are collected as a product. -/
theorem Core.collectProduct_coefficient {f : Expr} (h : Core f) (hs : Stable f) {c : Fraction}
    (hone : c.num ≠ c.den) :
    collectProduct simp c.reduce.negated [rational (c.reduce.withSign false), f] =
      .ok (scaled c f) := by
  rw [h.collectProduct_eq hs rfl]
  by_cases hz : c.num = 0
  · rw [scaled, if_pos hz, if_pos (by simpa [Fraction.isZero] using hz)]
  · have hz' : (c.reduce.withSign false).isZero = false := by
      simpa [Fraction.isZero] using fun he => hz (Fraction.reduce_num_eq_zero.1 he)
    have ho' : (c.reduce.withSign false).isOne = false := by
      have : c.reduce.num ≠ c.reduce.den := fun he =>
        hone (Nat.div_left_inj (Nat.gcd_dvd_left _ _) (Nat.gcd_dvd_right _ _) |>.1 he)
      simpa [Fraction.isOne] using this
    have hsgn : c.reduce.negated = c.negated := by
      rw [Fraction.reduce_negated, show (c.num != 0) = true by simpa using hz, Bool.and_true]
    have hscaled := h.shaped_scaled hs c
    rw [scaled_of_ne hz hone] at hscaled ⊢
    rw [hz', ho', hscaled.joinProduct_eq, hsgn]
    rfl

/-- A factor with a coefficient is written as one addend. -/
theorem Core.ofTerm_eq {n : Nat} (fix : ∀ e, Stable e → mass e < n → simplifyWithin n e = .ok e)
    {f : Expr} (h : Core f) (hs : Stable f) {c : Fraction} (hn : termMass (f, c) < n) :
    ofTerm (simplifyWithin (n + 1)) (f, c) = .ok (scaled c f) := by
  have hr := fix _ (h.shaped_scaled hs c) (Nat.lt_of_le_of_lt (mass_scaled_le c f) hn)
  have hf := fix f hs (Nat.lt_of_le_of_lt (Nat.le_add_right _ _) hn)
  by_cases hone : c.num = c.den
  · have hz : c.num ≠ 0 := hone ▸ c.den_ne
    rw [scaled, if_neg hz, if_pos hone, ofTerm, Fraction.isOne, hone, beq_self_eq_true,
      Bool.true_and]
    cases c.negated with
    | false => exact congrArg _ (sign_eq_self h.unsigned).symm
    | true =>
      rw [hs.flip_eq, h.unsigned]
      rfl
  · have hone' : (c.num == c.den) = false := by simpa using hone
    rw [ofTerm]
    simp only [Fraction.isOne, hone', Bool.false_and, Bool.false_eq_true, if_false]
    obtain ⟨m, rfl⟩ : ∃ m, n = m + 1 := ⟨n - 1, by omega⟩
    have hmk : mkProduct false [rational c, f] = .product false [rational c, f] := by
      have ho : Ordered [rational c, f] :=
        List.isChain_cons_cons.2 ⟨lt_rational_of_other h.noNumber c, .singleton f⟩
      rw [mkProduct, copyAll, copyAll, copyAll, hs.copy_eq, copy, ho.sort_eq]
    have hsign : productSign false [rational c.reduce, f] = c.reduce.negated := by
      simp [productSign, h.unsigned]
    have hunsigned : Expr.unsigned [rational c.reduce, f] =
        [rational (c.reduce.withSign false), f] := by
      rw [Expr.unsigned, List.map_cons, List.map_cons, hs.withSign_eq, sign_eq_self h.unsigned]
      rfl
    have hothers : others [rational c.reduce, f] ≠ [] := by
      rw [others_cons_rational, others_cons_of_other h.noNumber]
      exact List.cons_ne_nil _ _
    rw [hmk, simplifyWithin, List.mapM_cons, List.mapM_cons, List.mapM_nil, hf]
    simp only [simplifyWithin, bind, Except.bind, pure, Except.pure, finishProduct,
      numbers?_eq_none hothers, hsign, hunsigned, h.collectProduct_coefficient hs hone,
      hr, ite_self]

/-- The parts of an addend are put together to the same addend. -/
theorem Stable.ofTerm_term {n : Nat}
    (fix : ∀ e, Stable e → mass e < n → simplifyWithin n e = .ok e) {e : Expr} (h : Stable e)
    (hnum : e.isNumber = false) (hn : mass e < n) :
    ofTerm (simplifyWithin (n + 1)) e.term = .ok e := by
  obtain ⟨hcore, hstable, hmass⟩ := h.term_spec hnum
  have heq := hcore.ofTerm_eq fix hstable (c := e.term.2) (by rwa [Prod.mk.eta, hmass])
  rwa [Prod.mk.eta, h.scaled_term hnum] at heq

/-- Without nested sums all addends but the numbers are proper. -/
theorem properAddends_eq {es : List Expr} (h : ∀ e ∈ es, e.shape ≠ .sum) :
    properAddends es = others es :=
  List.filter_eq_self.2 fun e he => by simpa using h e (mem_others.1 he).1

/-- Without nested sums nothing is opened. -/
theorem flatMap_openedSum_eq {es : List Expr} (h : ∀ e ∈ es, e.shape ≠ .sum) :
    es.flatMap openedSum = [] := by
  refine List.flatMap_eq_nil_iff.2 fun e he => ?_
  have := h e he
  cases e <;> first | rfl | exact absurd rfl this

/-- At most one number, other than zero, is its own total. -/
theorem totalAddend_eq {qs : List Fraction} (hl : qs.length ≤ 1)
    (hz : ∀ q ∈ qs, q.isZero = false) : totalAddend qs = qs.map rational := by
  match qs with
  | [] => rfl
  | [q] =>
    have hq : q.isZero = false := hz q (List.mem_singleton_self q)
    have hnum : q.num ≠ 0 := by simpa [Fraction.isZero] using hq
    simp only [totalAddend, List.foldl_cons, List.foldl_nil, Fraction.ofNat_zero_add hnum, hq,
      Bool.false_eq_true, if_false, List.map_cons, List.map_nil]
  | _ :: _ :: _ => exact absurd hl (by simp)

/-- The addends of a sum in which nothing is left to collect are found again. -/
theorem SumForm.collectSum_eq {es : List Expr} (h : SumForm es)
    (hterm : ∀ e ∈ others es, ofTerm simp e.term = .ok e) (s : Bool) :
    collectSum simp s es = .ok (joinSum s ((numbers es).map rational ++ others es)) := by
  have hnodup : (((others es).map term).map Prod.fst).Nodup := by
    rw [List.map_map]
    exact h.distinct
  rw [collectSum_eq_bind, flatMap_openedSum_eq h.noSum, terms, properAddends_eq h.noSum,
    gatherAll_of_nodup _ hnodup, mapM_map_eq_ok hterm, totalAddend_eq h.oneNumber h.noZero]
  rfl

/-! ### Powers -/

/-- No rule applies to a power in shape. -/
theorem PowerShape.powerRule_eq {b x : Expr} (h : PowerShape b x) : powerRule b x = .none := by
  have hbz : b.rational?.any Fraction.isZero = false := by
    cases b <;> first | rfl | exact (h.noUnitBase _ rfl).1
  have hbo : b.rational?.any Fraction.isOne = false := by
    cases b <;> first | rfl | exact (h.noUnitBase _ rfl).2
  have hz : x.rational?.any Fraction.isZero = false := by
    cases x <;> first | rfl | exact (h.noUnit _ rfl).1
  have ho : x.rational?.any Fraction.isOne = false := by
    cases x <;> first | rfl | exact (h.noUnit _ rfl).2
  unfold powerRule
  rw [hbz, hbo, hz, ho]
  have hs := h.unsigned
  cases b with
  | power => exact absurd rfl h.noPower
  | _ => simp [hs]

/-! ### The theorem -/

/-- Stable expressions are left as they are. -/
theorem Stable.simplifyWithin_eq {e : Expr} (h : Stable e) {n : Nat} (hn : mass e < n) :
    simplifyWithin n e = .ok e := by
  induction n using Nat.strongRecOn generalizing e with
  | ind n ih =>
    obtain ⟨n, rfl⟩ : ∃ m, n = m + 1 := ⟨n - 1, by omega⟩
    have fix : ∀ e, Stable e → mass e < n → simplifyWithin n e = .ok e :=
      fun e he hw => ih n (Nat.lt_succ_self n) he hw
    cases e with
    | rational q => rw [simplifyWithin, show q.reduce = q from h]
    | symbol s c => rfl
    | sum s es =>
      obtain ⟨hes, hl, ho, hf⟩ := shaped_sum_iff.1 h
      rw [mass] at hn
      have hmap : es.mapM (simplifyWithin n) = .ok es :=
        mapM_eq_self fun e he => fix e (hes e he) (by have := mass_le_massAll he; omega)
      have hterm : ∀ e ∈ others es, ofTerm (simplifyWithin n) e.term = .ok e := by
        intro e he
        obtain ⟨hm, hnum⟩ := mem_others.1 he
        have hlt := mass_lt_massAll hm hl
        obtain ⟨m, rfl⟩ : ∃ m, n = m + 1 := ⟨n - 1, by omega⟩
        exact Stable.ofTerm_term (fun e he hw => ih m (by omega) he hw) (hes e hm) hnum (by omega)
      rw [simplifyWithin, hmap]
      simp only [bind, Except.bind, finishSum, numbers?_eq_none (others_ne_nil hl hf.oneNumber),
        hf.collectSum_eq hterm, ho.eq_numbers_append_others, h.joinSum_eq,
        beq_self_eq_true, if_true]
      rfl
    | product s es =>
      obtain ⟨hes, hl, ho, hf⟩ := shaped_product_iff.1 h
      rw [mass] at hn
      have hmap : es.mapM (simplifyWithin n) = .ok es :=
        mapM_eq_self fun e he => fix e (hes e he) (by have := mass_le_massAll he; omega)
      have hothers := others_ne_nil hl hf.oneNumber
      have hunsigned : Expr.unsigned es = es := by
        refine (List.map_congr_left fun e he => ?_).trans (List.map_id es)
        rw [(hes e he).withSign_eq, sign_eq_self (hf.unsigned e he)]
        rfl
      rw [simplifyWithin, hmap]
      simp only [bind, Except.bind, finishProduct, numbers?_eq_none hothers,
        productSign_eq hf.unsigned, hunsigned, hf.collectProduct_eq hes hothers,
        ho.eq_numbers_append_others, h.joinProduct_eq, beq_self_eq_true, if_true]
      rfl
    | power s b x =>
      obtain ⟨hb, hx, hf⟩ := shaped_power_iff.1 h
      rw [mass] at hn
      rw [simplifyWithin, fix b hb (by omega), fix x hx (by omega)]
      simp only [bind, Except.bind, finishPower, hf.inexact, rewritePower, hf.powerRule_eq,
        mkPower_eq hb.copy_eq hx.copy_eq, beq_self_eq_true, Bool.and_true]
      rfl

end SymScript.Expr
