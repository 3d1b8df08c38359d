import Mathlib.Algebra.CharP.Algebra
import Mathlib.Algebra.MvPolynomial.CommRing
import Mathlib.Algebra.MvPolynomial.Basic
import Mathlib.RingTheory.MvPolynomial.Basic
import Mathlib.RingTheory.Localization.FractionRing
import SymScript.Proofs.SortKey
import SymScript.Term

/-!
# Simplified sums of monomials are canonical

A sum of monomials stands for a polynomial with rational coefficients.  Two such sums stand for the
same polynomial exactly if they simplify to the same expression.

Simplification keeps the polynomial, because it keeps the value in the field of rational functions.
For the converse, a monomial in normal form is determined by its exponents and its coefficient, the
addends of a sum in normal form have different exponents, and their order is determined too.
-/

namespace SymScript.Expr

open MvPolynomial

/-! ### Polynomials -/

mutual

/-- The polynomial that an expression stands for, if its exponents are natural numbers. -/
noncomputable def polynomial : Expr → MvPolynomial Char ℚ
  | rational q => C q.toRat
  | symbol s c => signed s (X c)
  | sum s es => signed s (polynomialSum es)
  | product s es => signed s (polynomialProduct es)
  | power s b x => signed s (polynomial b ^ (integer x).toNat)

noncomputable def polynomialSum : List Expr → MvPolynomial Char ℚ
  | [] => 0
  | e :: es => polynomial e + polynomialSum es

noncomputable def polynomialProduct : List Expr → MvPolynomial Char ℚ
  | [] => 1
  | e :: es => polynomial e * polynomialProduct es

end

theorem polynomialSum_eq (es : List Expr) : polynomialSum es = (es.map polynomial).sum := by
  induction es with
  | nil => rfl
  | cons e es ih => rw [polynomialSum, ih, List.map_cons, List.sum_cons]

section Value

variable {K : Type*} [Field K] (φ : MvPolynomial Char ℚ →+* K)

theorem map_signed (s : Bool) (p : MvPolynomial Char ℚ) : φ (signed s p) = signed s (φ p) := by
  cases s <;> simp

mutual

/-- The value of a monomial is that of the polynomial that it stands for. -/
theorem Monomial.value_eq : ∀ {e : Expr}, Monomial e → value (fun c => φ (X c)) e = φ (polynomial e)
  | rational q, _ => by
    rw [value, polynomial]
    exact (eq_ratCast (φ.comp C) q.toRat).symm
  | symbol s c, _ => by rw [value, polynomial, map_signed]
  | product s es, h => by
    rw [Monomial] at h
    rw [value, polynomial, map_signed, MonomialAll.value_eq h]
  | power s b x, h => by
    obtain ⟨c, q, rfl, rfl, hd, hs, -⟩ := monomial_power_iff.1 h
    have hint : integer (rational q) = q.num := by
      rw [integer_rational hd, Fraction.signedNum, hs]
      rfl
    rw [value, value, polynomial, polynomial, map_signed, hint, map_pow, zpow_natCast,
      Int.toNat_natCast]
    rfl

theorem MonomialAll.value_eq : ∀ {es : List Expr}, MonomialAll es →
    valueProduct (fun c => φ (X c)) es = φ (polynomialProduct es)
  | [], _ => by rw [valueProduct, polynomialProduct, map_one]
  | e :: es, h => by
    rw [MonomialAll] at h
    rw [valueProduct, polynomialProduct, map_mul, Monomial.value_eq h.1, MonomialAll.value_eq h.2]

end

mutual

/-- The value of a sum of monomials is that of the polynomial that it stands for. -/
theorem MonomialSum.value_eq : ∀ {e : Expr}, MonomialSum e →
    value (fun c => φ (X c)) e = φ (polynomial e)
  | sum s es, h => by
    rw [MonomialSum] at h
    rw [value, polynomial, map_signed, MonomialSumAll.value_eq h]
  | rational q, h => Monomial.value_eq φ (e := rational q) h
  | symbol s c, h => Monomial.value_eq φ (e := symbol s c) h
  | product .., h => Monomial.value_eq φ h
  | power .., h => Monomial.value_eq φ h

theorem MonomialSumAll.value_eq : ∀ {es : List Expr}, MonomialSumAll es →
    valueSum (fun c => φ (X c)) es = φ (polynomialSum es)
  | [], _ => by rw [valueSum, polynomialSum, map_zero]
  | e :: es, h => by
    rw [MonomialSumAll] at h
    rw [valueSum, polynomialSum, map_add, MonomialSum.value_eq h.1, MonomialSumAll.value_eq h.2]

end

end Value

/-- Rational functions in the letters. -/
abbrev Functions := FractionRing (MvPolynomial Char ℚ)

/-- Polynomials are told apart as functions. -/
theorem algebraMap_injective : Function.Injective (algebraMap (MvPolynomial Char ℚ) Functions) :=
  IsFractionRing.injective _ _

instance : CharZero Functions := charZero_of_injective_algebraMap algebraMap_injective

/-- A letter is not zero as a function, so that it may be divided by. -/
theorem algebraMap_X_ne_zero (c : Char) : algebraMap (MvPolynomial Char ℚ) Functions (X c) ≠ 0 := by
  rw [ne_eq, map_eq_zero_iff _ algebraMap_injective]
  exact X_ne_zero c

/-- Simplifying keeps the polynomial. -/
theorem MonomialSum.polynomial_simplify {e r : Expr} (h : MonomialSum e) (hr : simplify e = .ok r)
    (hsum : MonomialSum r) : polynomial r = polynomial e := by
  apply algebraMap_injective
  have hends := h.laurent.grouped.algebraic.simplify_settles.ends
  obtain ⟨r', hr', -, hv⟩ :=
    (h.laurent.grouped.simplifyWithin_gives algebraMap_X_ne_zero e.simplifyBound).resolve_left hends
  rw [simplify] at hr
  cases hr.symm.trans hr'
  rw [← hsum.value_eq, ← h.value_eq, hv]

/-! ### Exponents and coefficients -/

mutual

/-- The exponents of the letters of a monomial. -/
noncomputable def degree : Expr → Char →₀ ℕ
  | symbol _ c => Finsupp.single c 1
  | product _ es => degreeAll es
  | power _ b x => (integer x).toNat • degree b
  | rational _ | sum .. => 0

noncomputable def degreeAll : List Expr → Char →₀ ℕ
  | [] => 0
  | e :: es => degree e + degreeAll es

end

mutual

/-- The coefficient of a monomial. -/
def coefficient : Expr → ℚ
  | rational q => q.toRat
  | symbol s _ | power s _ _ => signed s 1
  | product s es => signed s (coefficientAll es)
  | sum .. => 0

def coefficientAll : List Expr → ℚ
  | [] => 1
  | e :: es => coefficient e * coefficientAll es

end

/-- Signs do not change exponents. -/
theorem degree_sign (s : Bool) (e : Expr) : degree (e.sign s) = degree e := by
  cases e <;> rfl

theorem degreeAll_eq (es : List Expr) : degreeAll es = (es.map degree).sum := by
  induction es with
  | nil => rfl
  | cons e es ih => rw [degreeAll, ih, List.map_cons, List.sum_cons]

/-- The sign of a monomial goes to its coefficient. -/
theorem signed_monomial (s : Bool) (d : Char →₀ ℕ) (q : ℚ) :
    signed s (monomial d q) = monomial d (signed s q) := by
  cases s <;> simp

mutual

/-- A monomial is its coefficient times letters with their exponents. -/
theorem Monomial.polynomial_eq : ∀ {e : Expr}, Monomial e →
    polynomial e = monomial (degree e) (coefficient e)
  | rational q, _ => rfl
  | symbol s c, _ => by
    rw [polynomial, degree, coefficient, ← signed_monomial]
    rfl
  | product s es, h => by
    rw [Monomial] at h
    rw [polynomial, degree, coefficient, ← signed_monomial, MonomialAll.polynomial_eq h]
  | power s b x, h => by
    obtain ⟨c, q, rfl, rfl, -⟩ := monomial_power_iff.1 h
    rw [polynomial, degree, coefficient, ← signed_monomial, polynomial, degree, signed_false, X,
      monomial_pow, one_pow]

theorem MonomialAll.polynomial_eq : ∀ {es : List Expr}, MonomialAll es →
    polynomialProduct es = monomial (degreeAll es) (coefficientAll es)
  | [], _ => rfl
  | e :: es, h => by
    rw [MonomialAll] at h
    rw [polynomialProduct, degreeAll, coefficientAll, Monomial.polynomial_eq h.1,
      MonomialAll.polynomial_eq h.2, monomial_mul]

end

/-- Factors without coefficients have the coefficient one. -/
theorem coefficientAll_eq_one {es : List Expr} (h : ∀ e ∈ es, coefficient e = 1) :
    coefficientAll es = 1 := by
  induction es with
  | nil => rfl
  | cons e es ih =>
    obtain ⟨he, hes⟩ := List.forall_mem_cons.1 h
    rw [coefficientAll, he, ih hes, one_mul]

/-- A sum in which all members but one vanish. -/
theorem sum_map_eq_of_mem {α M : Type*} [AddCommMonoid M] {l : List α} (hl : l.Nodup) {w : α → M}
    {a : α} (ha : a ∈ l) (h : ∀ b ∈ l, b ≠ a → w b = 0) : (l.map w).sum = w a := by
  classical
  rw [← List.sum_toFinset w hl]
  exact Finset.sum_eq_single_of_mem a (List.mem_toFinset.2 ha) fun b hb =>
    h b (List.mem_toFinset.1 hb)

/-! ### Factors without a coefficient -/

/-- A power of a letter, as a factor is written. -/
def letterPower (c : Char) (n : ℕ) : Expr :=
  if n = 1 then symbol false c else power false (symbol false c) (rational (.ofNat n))

/-- A factor in normal form is a power of a letter. -/
theorem IsFactor.eq_letterPower {e : Expr} (h : IsFactor e) (hn : Normal e)
    (hnum : e.isNumber = false) (hs : e.negated = false) :
    ∃ c n, n ≠ 0 ∧ e = letterPower c n ∧ e.base = symbol false c ∧ degree e = Finsupp.single c n ∧
      coefficient e = 1 := by
  cases e with
  | rational => cases hnum
  | sum => cases h.monomial
  | product => exact absurd rfl h.noProduct
  | symbol s c =>
    obtain rfl : s = false := hs
    exact ⟨c, 1, one_ne_zero, rfl, rfl, rfl, rfl⟩
  | power s b x =>
    obtain rfl : s = false := hs
    obtain ⟨c, q, rfl, rfl, hd, hq, hz⟩ := monomial_power_iff.1 h.monomial
    obtain ⟨n, rfl⟩ : ∃ n, q = .ofNat n := ⟨q.num, Fraction.ext hq rfl hd⟩
    have hone : n ≠ 1 := by
      have hunit := ((normal_power_iff.1 hn).2.2.noUnit _ rfl).2
      simpa [Fraction.isOne] using hunit
    refine ⟨c, n, hz, ?_, rfl, ?_, rfl⟩
    · rw [letterPower, if_neg hone]
    · rw [degree, degree, integer_rational rfl]
      simp [Fraction.signedNum]

namespace Bare

variable {f g : Expr} (hf : Bare f) (hm : Monomial f)

include hf

/-- A bare expression is joined from its factors. -/
theorem joined_factors : joined f.factors = f := by
  by_cases hp : f.shape = .product
  · cases f <;> cases hp
    rename_i s fs
    obtain rfl : s = false := hf.unsigned
    have hl := (normal_product_iff.1 hf.normal).2.1
    match fs with
    | [] | [_] => exact absurd hl (by simp)
    | _ :: _ :: _ => rfl
  · rw [factors_of_ne_product hp]
    rfl

/-- The factors of a bare expression have different bases. -/
theorem factors_nodup : (f.factors.map base).Nodup := by
  have h := hf.productForm_factors.distinct
  rwa [others_eq_self hf.noCoefficient] at h

include hm

/-- The factors of a monomial are monomials. -/
theorem monomial_factors : ∀ e ∈ f.factors, Monomial e := by
  cases f with
  | product s fs => exact monomial_product_iff.1 hm
  | _ => exact List.forall_mem_singleton.2 hm

/-- The factors of a bare monomial are powers of letters. -/
theorem letterPower_of_mem : ∀ e ∈ f.factors, ∃ c n, n ≠ 0 ∧ e = letterPower c n ∧
    e.base = symbol false c ∧ degree e = Finsupp.single c n ∧ coefficient e = 1 := by
  intro e he
  have hform := hf.productForm_factors
  have hfactor : IsFactor e := ⟨hf.monomial_factors hm e he, hform.noProduct e he⟩
  refine hfactor.eq_letterPower (hf.normal_factors e he) ?_ (hform.unsigned e he)
  rw [← others_eq_self hf.noCoefficient] at he
  exact (mem_others.1 he).2

/-- The exponents of a bare monomial are those of its factors. -/
theorem degree_eq : degree f = (f.factors.map degree).sum := by
  cases f with
  | product s fs => exact degreeAll_eq fs
  | _ => exact (List.sum_singleton).symm

/-- A bare monomial has the coefficient one. -/
theorem coefficient_eq_one : coefficient f = 1 := by
  have hone : ∀ e ∈ f.factors, coefficient e = 1 := by
    intro e he
    obtain ⟨-, -, -, -, -, -, h⟩ := hf.letterPower_of_mem hm e he
    exact h
  cases f with
  | product s fs =>
    obtain rfl : s = false := hf.unsigned
    exact coefficientAll_eq_one hone
  | _ => exact hone _ (List.mem_singleton_self _)

theorem degree_apply_eq (c : Char) : degree f c = (f.factors.map fun e => degree e c).sum := by
  rw [hf.degree_eq hm, ← Finsupp.applyAddHom_apply, map_list_sum, List.map_map]
  rfl

/-- The exponent of a letter is that of the one factor with this base. -/
theorem degree_apply {e : Expr} (he : e ∈ f.factors) {c : Char} {n : ℕ}
    (hb : e.base = symbol false c) (hd : degree e = Finsupp.single c n) : degree f c = n := by
  rw [hf.degree_apply_eq hm, sum_map_eq_of_mem (hf.factors_nodup.of_map _) he, hd,
    Finsupp.single_eq_same]
  intro e' he' hne
  obtain ⟨d, m, -, -, hb', hd', -⟩ := hf.letterPower_of_mem hm e' he'
  rw [hd', Finsupp.single_apply, if_neg]
  rintro rfl
  exact hne (List.inj_on_of_nodup_map hf.factors_nodup he' he (hb'.trans hb.symm))

/-- The factors are the powers of letters that the degree names. -/
theorem mem_factors_iff {e : Expr} :
    e ∈ f.factors ↔ ∃ c, degree f c ≠ 0 ∧ e = letterPower c (degree f c) := by
  constructor
  · intro he
    obtain ⟨c, n, hn, rfl, hb, hd, -⟩ := hf.letterPower_of_mem hm e he
    have hfc := hf.degree_apply hm he hb hd
    exact ⟨c, hfc ▸ hn, by rw [hfc]⟩
  · rintro ⟨c, hc, rfl⟩
    obtain ⟨e, he, hec⟩ : ∃ e ∈ f.factors, degree e c ≠ 0 := by
      by_contra hnone
      have hzero : ∀ e ∈ f.factors, degree e c = 0 := fun e he =>
        not_not.1 fun hec => hnone ⟨e, he, hec⟩
      apply hc
      rw [hf.degree_apply_eq hm, List.map_congr_left hzero]
      simp
    obtain ⟨d, n, hn, rfl, hb, hd, -⟩ := hf.letterPower_of_mem hm e he
    obtain rfl : d = c := by
      by_contra hdc
      rw [hd, Finsupp.single_apply, if_neg hdc] at hec
      exact hec rfl
    rwa [hf.degree_apply hm he hb hd]

/-- A bare monomial has a letter. -/
theorem degree_ne_zero : degree f ≠ 0 := by
  obtain ⟨e, he⟩ := List.exists_mem_of_ne_nil _ hf.factors_ne_nil
  obtain ⟨c, n, hn, -, hb, hd, -⟩ := hf.letterPower_of_mem hm e he
  intro h
  apply hn
  rw [← hf.degree_apply hm he hb hd, h, Finsupp.zero_apply]

/-- A monomial without a coefficient is determined by its exponents. -/
theorem eq_of_degree_eq (hg : Bare g) (hmg : Monomial g) (h : degree f = degree g) : f = g := by
  have hperm : f.factors.Perm g.factors := by
    refine (List.perm_ext_iff_of_nodup (hf.factors_nodup.of_map _) (hg.factors_nodup.of_map _)).2 ?_
    intro e
    rw [hf.mem_factors_iff hm, hg.mem_factors_iff hmg, h]
  have hform := hf.productForm_factors
  have hfactor : ∀ e ∈ f.factors, IsFactor e := fun e he =>
    ⟨hf.monomial_factors hm e he, hform.noProduct e he⟩
  have hfactors : f.factors = g.factors := by
    refine Ordered.eq_of_perm hf.normal_factors (hf.monomial_factors hm) ?_ hf.ordered_factors
      hg.ordered_factors hperm
    intro a ha b hb hkeys
    refine (hfactor a ha).eq_of_key_eq (hfactor b hb) (hform.unsigned a ha) (hform.unsigned b hb) ?_
    rw [keys, keys, factors_of_ne_product (hform.noProduct a ha),
      factors_of_ne_product (hform.noProduct b hb)] at hkeys
    exact (List.cons.inj (Prod.mk.inj (toLex.injective hkeys)).2).1
  rw [← hf.joined_factors, hfactors, hg.joined_factors]

end Bare

/-! ### Monomials in normal form -/

/-- A coefficient counts by its value only. -/
theorem scaled_congr {c d : Fraction} (h : c.toRat = d.toRat) (f : Expr) :
    scaled c f = scaled d f := by
  have hreduce := Fraction.reduce_eq_of_toRat_eq h
  have hzero : c.num = 0 ↔ d.num = 0 := by
    rw [← Fraction.toRat_eq_zero_iff, h, Fraction.toRat_eq_zero_iff]
  have hone : c.num = c.den ↔ d.num = d.den := by
    rw [← Fraction.reduce_num_eq_den, hreduce, Fraction.reduce_num_eq_den]
  by_cases hz : c.num = 0
  · rw [scaled, scaled, if_pos hz, if_pos (hzero.1 hz)]
  have hsign : c.negated = d.negated := by
    have hneg := congrArg Fraction.negated hreduce
    rw [Fraction.reduce_negated, Fraction.reduce_negated, bne_iff_ne.2 hz,
      bne_iff_ne.2 (mt hzero.2 hz), Bool.and_true, Bool.and_true] at hneg
    exact hneg
  rw [scaled, scaled, if_neg hz, if_neg (mt hzero.2 hz), hsign, hreduce]
  simp only [hone]

section Normal

variable {e f : Expr} (he : Normal e) (hm : Monomial e)

include he hm

/-- The exponents and the coefficient of a monomial that is no number. -/
theorem Normal.term_eq (hn : e.isNumber = false) : degree e = degree e.term.1 ∧
    coefficient e = e.term.2.toRat ∧ e.term.2.toRat ≠ 0 := by
  obtain ⟨hbare, hscaled⟩ := he.term_spec hn
  have hterm := he.monomial_term hn hm
  have hne : e.term.2.toRat ≠ 0 := by
    rw [ne_eq, Fraction.toRat_eq_zero_iff]
    intro hz
    rw [← hscaled, scaled, if_pos hz] at hn
    cases hn
  have hpoly : polynomial e = C e.term.2.toRat * polynomial e.term.1 := by
    apply algebraMap_injective
    rw [map_mul, ← hm.value_eq, ← hterm.value_eq, he.value_term hn]
    congr 1
    exact (eq_ratCast ((algebraMap (MvPolynomial Char ℚ) Functions).comp C) e.term.2.toRat).symm
  rw [hm.polynomial_eq, hterm.polynomial_eq, C_mul_monomial,
    hbare.coefficient_eq_one hterm, mul_one, monomial_eq_monomial_iff] at hpoly
  rcases hpoly with ⟨hd, hc⟩ | ⟨-, hc⟩
  · exact ⟨hd, hc, hne⟩
  · exact absurd hc hne

/-- A monomial in normal form that is no number has a letter. -/
theorem Normal.degree_ne_zero (hn : e.isNumber = false) : degree e ≠ 0 := by
  rw [(he.term_eq hm hn).1]
  exact (he.term_spec hn).1.degree_ne_zero (he.monomial_term hn hm)

/-- Addends that are no numbers differ in their exponents if they differ in their factors. -/
theorem Normal.term_eq_of_degree_eq (hn : e.isNumber = false) (hf : Normal f) (hmf : Monomial f)
    (hnf : f.isNumber = false) (h : degree e = degree f) : e.term.1 = f.term.1 := by
  rw [(he.term_eq hm hn).1, (hf.term_eq hmf hnf).1] at h
  exact (he.term_spec hn).1.eq_of_degree_eq (he.monomial_term hn hm) (hf.term_spec hnf).1
    (hf.monomial_term hnf hmf) h

/-- A monomial in normal form is determined by its exponents and its coefficient. -/
theorem Normal.eq_of_degree_eq (hf : Normal f) (hmf : Monomial f) (hd : degree e = degree f)
    (hc : coefficient e = coefficient f) : e = f := by
  cases hn : e.isNumber with
  | true =>
    obtain ⟨q, rfl⟩ := isNumber_iff.1 hn
    cases hnf : f.isNumber with
    | true =>
      obtain ⟨r, rfl⟩ := isNumber_iff.1 hnf
      rw [Fraction.eq_of_toRat_eq he hf hc]
    | false => exact absurd hd.symm (hf.degree_ne_zero hmf hnf)
  | false =>
    cases hnf : f.isNumber with
    | true =>
      obtain ⟨r, rfl⟩ := isNumber_iff.1 hnf
      exact absurd hd (he.degree_ne_zero hm hn)
    | false =>
      have hterm := he.term_eq_of_degree_eq hm hn hf hmf hnf hd
      rw [(he.term_eq hm hn).2.1, (hf.term_eq hmf hnf).2.1] at hc
      rw [← (he.term_spec hn).2, ← (hf.term_spec hnf).2, hterm, scaled_congr hc]

end Normal

/-! ### Keys and exponents -/

/-- Factors with the same key have the same exponents. -/
theorem IsFactor.degree_eq_of_key_eq {e f : Expr} (he : IsFactor e) (hf : IsFactor f)
    (h : key e = key f) : degree e = degree f := by
  rw [← degree_sign e.negated f, ← he.sign_eq_of_key_eq hf h, sign_self]

/-- Lists of factors with the same keys have the same exponents. -/
theorem degreeAll_eq_of_keys_eq {as bs : List Expr} (ha : ∀ e ∈ as, IsFactor e)
    (hb : ∀ e ∈ bs, IsFactor e) (h : as.map key = bs.map key) : degreeAll as = degreeAll bs := by
  induction as generalizing bs with
  | nil =>
    cases bs with
    | nil => rfl
    | cons => cases h
  | cons a as ih =>
    cases bs with
    | nil => cases h
    | cons b bs =>
      obtain ⟨haf, has⟩ := List.forall_mem_cons.1 ha
      obtain ⟨hbf, hbs⟩ := List.forall_mem_cons.1 hb
      obtain ⟨hkey, hkeys⟩ := List.cons.inj h
      rw [degreeAll, degreeAll, haf.degree_eq_of_key_eq hbf hkey, ih has hbs hkeys]

/-- The keys of a monomial tell what its exponents are. -/
theorem degree_eq_of_keys_eq {e f : Expr} (he : Normal e) (hf : Normal f) (hem : Monomial e)
    (hfm : Monomial f) (h : keys e = keys f) : degree e = degree f := by
  obtain ⟨hrank, hkeys⟩ := Prod.mk.inj (toLex.injective h)
  have hshape : e.shape = f.shape := rank_injective hrank
  by_cases hp : e.shape = .product
  · cases e <;> cases hp
    cases f <;> cases hshape
    exact degreeAll_eq_of_keys_eq (fun a ha => (he.isFactor hem a ha).1)
      (fun a ha => (hf.isFactor hfm a ha).1) hkeys
  · have hp' : f.shape ≠ .product := hshape ▸ hp
    rw [factors_of_ne_product hp, factors_of_ne_product hp'] at hkeys
    exact IsFactor.degree_eq_of_key_eq ⟨hem, hp⟩ ⟨hfm, hp'⟩ (List.cons.inj hkeys).1

/-! ### Addends -/

/-- The addends of a sum of monomials in normal form. -/
structure Addends (es : List Expr) : Prop where
  normal : ∀ e ∈ es, Normal e
  monomial : ∀ e ∈ es, Monomial e
  ordered : Ordered es
  nodup : es.Nodup
  nonzero : ∀ e ∈ es, coefficient e ≠ 0
  distinct : ∀ e ∈ es, ∀ f ∈ es, degree e = degree f → e = f

namespace Addends

variable {es fs : List Expr} (he : Addends es)

include he

theorem polynomial_eq : ∀ e ∈ es, polynomial e = MvPolynomial.monomial (degree e) (coefficient e) :=
  fun e h => (he.monomial e h).polynomial_eq

/-- The coefficient of an addend can be read off the polynomial. -/
theorem coeff_degree {e : Expr} (h : e ∈ es) :
    coeff (degree e) (es.map polynomial).sum = coefficient e := by
  have hsum := map_list_sum (coeffAddMonoidHom (R := ℚ) (degree e)) (es.map polynomial)
  rw [List.map_map] at hsum
  refine (hsum.trans (sum_map_eq_of_mem he.nodup h ?_)).trans ?_
  · intro f hf hne
    change coeff (degree e) (polynomial f) = 0
    rw [he.polynomial_eq f hf, coeff_monomial, if_neg]
    exact fun hd => hne (he.distinct f hf e h hd)
  · change coeff (degree e) (polynomial e) = _
    rw [he.polynomial_eq e h, coeff_monomial, if_pos rfl]

/-- Every monomial of the polynomial comes from an addend. -/
theorem exists_of_coeff_ne_zero {d : Char →₀ ℕ} (h : coeff d (es.map polynomial).sum ≠ 0) :
    ∃ e ∈ es, degree e = d := by
  by_contra hnone
  apply h
  have hsum := map_list_sum (coeffAddMonoidHom (R := ℚ) d) (es.map polynomial)
  rw [List.map_map] at hsum
  refine hsum.trans ?_
  have hzero : ∀ e ∈ es, (coeffAddMonoidHom (R := ℚ) d ∘ polynomial) e = 0 := by
    intro e hmem
    change coeff d (polynomial e) = 0
    rw [he.polynomial_eq e hmem, coeff_monomial, if_neg]
    exact fun hd => hnone ⟨e, hmem, hd⟩
  rw [List.map_congr_left hzero]
  simp

/-- An addend of one sum is an addend of every other sum for the same polynomial. -/
theorem mem_of_sum_eq (hf : Addends fs) (h : (es.map polynomial).sum = (fs.map polynomial).sum)
    {e : Expr} (hmem : e ∈ es) : e ∈ fs := by
  have hc := he.coeff_degree hmem
  rw [h] at hc
  obtain ⟨f, hmem', hd⟩ := hf.exists_of_coeff_ne_zero (hc ▸ he.nonzero e hmem)
  have hc' := hf.coeff_degree hmem'
  rw [hd, hc] at hc'
  rwa [(he.normal e hmem).eq_of_degree_eq (he.monomial e hmem) (hf.normal f hmem')
    (hf.monomial f hmem') hd.symm hc']

/-- Lists of addends in normal form for the same polynomial are equal: they have the same members,
and the order arranges them. -/
theorem eq_of_sum_eq (hf : Addends fs) (h : (es.map polynomial).sum = (fs.map polynomial).sum) :
    es = fs := by
  have hperm : es.Perm fs := (List.perm_ext_iff_of_nodup he.nodup hf.nodup).2 fun e =>
    ⟨he.mem_of_sum_eq hf h, hf.mem_of_sum_eq he h.symm⟩
  refine Ordered.eq_of_perm he.normal he.monomial ?_ he.ordered hf.ordered hperm
  intro a ha b hb hkeys
  apply he.distinct a ha b hb
  exact degree_eq_of_keys_eq (he.normal a ha) (he.normal b hb) (he.monomial a ha) (he.monomial b hb)
    hkeys

end Addends

/-! ### Sums in normal form -/

/-- A monomial in normal form other than zero has a coefficient other than zero. -/
theorem Normal.coefficient_ne_zero {e : Expr} (h : Normal e) (hm : Monomial e)
    (hz : ∀ q, e = rational q → q.isZero = false) : coefficient e ≠ 0 := by
  cases hn : e.isNumber with
  | true =>
    obtain ⟨q, rfl⟩ := isNumber_iff.1 hn
    rw [coefficient, ne_eq, Fraction.toRat_eq_zero_iff]
    simpa [Fraction.isZero] using hz q rfl
  | false =>
    obtain ⟨-, hc, hne⟩ := h.term_eq hm hn
    rwa [hc]

/-- The addends of a sum in normal form are different. -/
theorem SumForm.nodup {es : List Expr} (h : SumForm es) : es.Nodup := by
  rw [← (numbers_append_others_perm es).nodup_iff, List.nodup_append]
  refine ⟨?_, h.distinct.of_map _, ?_⟩
  · apply List.Nodup.map (fun q r hqr => rational.inj hqr)
    match hn : numbers es with
    | [] => exact .nil
    | [q] => exact List.nodup_singleton q
    | _ :: _ :: _ => exact absurd h.oneNumber (by simp [hn])
  · rintro _ ha e hb rfl
    obtain ⟨q, -, rfl⟩ := List.mem_map.1 ha
    exact absurd (mem_others.1 hb).2 Bool.noConfusion

/-- The addends of a normal sum of monomials. -/
theorem Normal.addends {s : Bool} {es : List Expr} (h : Normal (sum s es))
    (hm : ∀ e ∈ es, Monomial e) : Addends es := by
  obtain ⟨hn, -, ho, hform⟩ := normal_sum_iff.1 h
  refine ⟨hn, hm, ho, hform.nodup, ?_, ?_⟩
  · intro e he
    refine (hn e he).coefficient_ne_zero (hm e he) ?_
    rintro q rfl
    exact hform.noZero q (mem_numbers.2 he)
  · intro e he f hf hd
    cases hne : e.isNumber with
    | true =>
      obtain ⟨q, rfl⟩ := isNumber_iff.1 hne
      cases hnf : f.isNumber with
      | true =>
        obtain ⟨r, rfl⟩ := isNumber_iff.1 hnf
        obtain ⟨p, hp⟩ := List.length_eq_one_iff.1
          (le_antisymm hform.oneNumber (List.length_pos_of_mem (mem_numbers.2 he)))
        have hq := mem_numbers.2 he
        have hr := mem_numbers.2 hf
        rw [hp, List.mem_singleton] at hq hr
        rw [hq, hr]
      | false => exact absurd hd.symm ((hn f hf).degree_ne_zero (hm f hf) hnf)
    | false =>
      cases hnf : f.isNumber with
      | true =>
        obtain ⟨r, rfl⟩ := isNumber_iff.1 hnf
        exact absurd hd ((hn e he).degree_ne_zero (hm e he) hne)
      | false =>
        refine List.inj_on_of_nodup_map hform.distinct (mem_others.2 ⟨he, hne⟩)
          (mem_others.2 ⟨hf, hnf⟩) ?_
        exact (hn e he).term_eq_of_degree_eq (hm e he) hne (hn f hf) (hm f hf) hnf hd

/-- An expression in normal form is made of its addends. -/
theorem Flat.exists_addends {a : Expr} (h : Flat false a) (hn : Normal a) :
    ∃ es, Addends es ∧ a = joinSum false es ∧ polynomial a = (es.map polynomial).sum := by
  rcases h with hm | ⟨es, rfl, hm⟩
  · by_cases hz : ∀ q, a = rational q → q.isZero = false
    · refine ⟨[a], ?_, ?_, ?_⟩
      · refine ⟨List.forall_mem_singleton.2 hn, List.forall_mem_singleton.2 hm, .singleton a,
          List.nodup_singleton a, List.forall_mem_singleton.2 (hn.coefficient_ne_zero hm hz), ?_⟩
        intro e he f hf _
        rw [List.mem_singleton.1 he, List.mem_singleton.1 hf]
      · rw [joinSum, hn.withSign_eq, Bool.false_bne, sign_self]
      · exact List.sum_singleton.symm
    · obtain ⟨q, rfl, hq⟩ : ∃ q, a = rational q ∧ q.num = 0 := by
        by_contra hnone
        refine hz fun q ha => ?_
        simpa [Fraction.isZero] using fun hq => hnone ⟨q, ha, hq⟩
      have hzero : q = .ofNat 0 := by
        refine Fraction.eq_of_toRat_eq hn rfl ?_
        rw [Fraction.toRat_eq_zero_iff.2 hq, Fraction.toRat_eq_zero_iff.2 rfl]
      refine ⟨[], ⟨List.forall_mem_nil _, List.forall_mem_nil _, .nil, .nil, List.forall_mem_nil _,
        List.forall_mem_nil _⟩, congrArg rational hzero, ?_⟩
      rw [polynomial, Fraction.toRat_eq_zero_iff.2 hq, C_0]
      rfl
  · refine ⟨es, hn.addends hm, (hn.shaped.joinSum_eq false).symm, ?_⟩
    rw [polynomial, signed_false, polynomialSum_eq]

/-- A sum of monomials simplifies to a sum of addends in normal form for the same polynomial. -/
theorem exists_addends_of_simplify {es : List Expr} (h : ∀ e ∈ es, MonomialSum e) :
    ∃ a as, simplify (sum false es) = .ok a ∧ polynomial a = polynomial (sum false es) ∧
      Addends as ∧ a = joinSum false as ∧ polynomial a = (as.map polynomial).sum := by
  have hsum : MonomialSum (sum false es) := monomialSum_sum_iff.2 h
  have halgebraic := hsum.laurent.grouped.algebraic
  obtain ⟨a, ha, hflat⟩ := (simplifyWithin_flat _ h).resolve_left halgebraic.simplify_settles.ends
  obtain ⟨as, has, hjoin, hpoly⟩ := hflat.exists_addends (halgebraic.normal_of_simplifyWithin ha)
  refine ⟨a, as, ha, hsum.polynomial_simplify ha ?_, has, hjoin, hpoly⟩
  rcases hflat with hm | ⟨bs, rfl, hbs⟩
  · exact hm.monomialSum
  · exact monomialSum_sum_iff.2 fun b hb => (hbs b hb).monomialSum

/-- What sums of monomials simplify to is the same exactly if they stand for the same polynomial. -/
theorem eq_iff_polynomial_eq {es fs : List Expr} {a b : Expr} (hs : ∀ e ∈ es, MonomialSum e)
    (ht : ∀ e ∈ fs, MonomialSum e) (ha : simplify (sum false es) = .ok a)
    (hb : simplify (sum false fs) = .ok b) :
    a = b ↔ polynomial (sum false es) = polynomial (sum false fs) := by
  obtain ⟨a', as, ha', hpa, has, hja, hsa⟩ := exists_addends_of_simplify hs
  obtain ⟨b', bs, hb', hpb, hbs, hjb, hsb⟩ := exists_addends_of_simplify ht
  obtain rfl : a = a' := Except.ok.inj (ha.symm.trans ha')
  obtain rfl : b = b' := Except.ok.inj (hb.symm.trans hb')
  rw [← hpa, ← hpb]
  constructor
  · rintro rfl
    rfl
  · intro h
    rw [hsa, hsb] at h
    rw [hja, hjb, has.eq_of_sum_eq hbs h]

/-- Sums of monomials simplify to the same expression exactly if they stand for the same polynomial.
Terms without shared nodes are simplified as their expressions are
(`TermGraph.Edit.simplify_unshared`). -/
theorem simplify_eq_iff_polynomial_eq {es fs : List Expr} (hs : ∀ e ∈ es, MonomialSum e)
    (ht : ∀ e ∈ fs, MonomialSum e) :
    ∃ a b, simplify (sum false es) = .ok a ∧ simplify (sum false fs) = .ok b ∧
      (Term.eq (.tree a) (.tree b) = true ↔
        polynomial (sum false es) = polynomial (sum false fs)) := by
  obtain ⟨a, -, ha, -⟩ := exists_addends_of_simplify hs
  obtain ⟨b, -, hb, -⟩ := exists_addends_of_simplify ht
  have heq : Term.eq (.tree a) (.tree b) = true ↔ a = b := beq_eq_true_iff
  exact ⟨a, b, ha, hb, heq.trans (eq_iff_polynomial_eq hs ht ha hb)⟩

/-- One polynomial written with a nested sum, and with a zero and a fraction not in lowest terms. -/
theorem simplify_eq_iff_polynomial_eq_xy :
    let x := symbol false 'x'
    let y := symbol false 'y'
    let es := [product false [x, y],
      sum true [product true [y, rational (.ofNat 2), x], symbol true 'z']]
    let fs := [symbol false 'z',
      product false [rational { negated := false, num := 6, den := 2 }, y, x],
      rational { negated := true, num := 0, den := 5 }]
    (∀ e ∈ es, MonomialSum e) ∧ (∀ e ∈ fs, MonomialSum e) ∧
      ∃ r, simplify (sum false es) = .ok r ∧ simplify (sum false fs) = .ok r := by
  intro x y es fs
  have hes : ∀ e ∈ es, MonomialSum e := by
    simp [es, x, y, MonomialSum, MonomialSumAll, Monomial, MonomialAll]
  have hfs : ∀ e ∈ fs, MonomialSum e := by
    simp [fs, x, y, MonomialSum, Monomial, MonomialAll]
  refine ⟨hes, hfs, ?_⟩
  obtain ⟨a, b, ha, hb, hab⟩ := simplify_eq_iff_polynomial_eq hes hfs
  have hpoly : polynomial (sum false es) = polynomial (sum false fs) := by
    have htwo : (C 2 : MvPolynomial Char ℚ) = 2 := map_ofNat C 2
    have hthree : (C (6 / 2) : MvPolynomial Char ℚ) = 3 := by
      rw [show (6 / 2 : ℚ) = 3 by norm_num]
      exact map_ofNat C 3
    simp only [es, fs, x, y, polynomial, polynomialSum, polynomialProduct, Fraction.toRat,
      Fraction.signedNum, Fraction.ofNat_negated, Fraction.ofNat_num, Fraction.ofNat_den,
      signed_false, signed_true, Bool.false_eq_true, ↓reduceIte, Nat.cast_ofNat, Int.cast_ofNat,
      Nat.cast_one, CharP.cast_eq_zero, neg_zero, Int.cast_zero, zero_div, div_one, C_0,
      htwo, hthree]
    ring
  obtain rfl : a = b := beq_eq_true_iff.1 (hab.2 hpoly)
  exact ⟨a, ha, hb⟩

end SymScript.Expr
