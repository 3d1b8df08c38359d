import Mathlib.Algebra.MvPolynomial.PDeriv
import SymScript.Expr.Functions
import SymScript.Proofs.Canonical
import SymScript.Proofs.Powers

/-!
# The derivative of a polynomial

A polynomial is written with numbers, letters, sums, products and powers of letters to whole numbers
from two on.  Its derivative by a letter always exists, and its value is what the rules come to:
`slope` reads them off the expression, without the simplifications in between.

Where letters and powers are not negated, the slope is the value of the formal derivative.  A
negated letter is taken for another letter, and the sign of a power is dropped.
-/

namespace SymScript.Expr

/-! ### Slopes -/

mutual

/-- What the rules for the derivative by `c` come to where the letters have the values `ρ`. -/
def slope (c : Char) (ρ : Char → ℚ) : Expr → ℚ
  | rational _ => 0
  | symbol s d => if s = false ∧ d = c then 1 else 0
  | sum s es => signed s (slopeSum c ρ es)
  | product s es => signed s (slopeProduct c ρ es)
  | power _ b x => integer x * value ρ b ^ (integer x - 1) * slope c ρ b

def slopeSum (c : Char) (ρ : Char → ℚ) : List Expr → ℚ
  | [] => 0
  | e :: es => slope c ρ e + slopeSum c ρ es

def slopeProduct (c : Char) (ρ : Char → ℚ) : List Expr → ℚ
  | [] => 0
  | e :: es => slope c ρ e * valueProduct ρ es + value ρ e * slopeProduct c ρ es

end

section Slope

variable {c : Char} {ρ : Char → ℚ}

theorem slopeSum_eq (es : List Expr) : slopeSum c ρ es = (es.map (slope c ρ)).sum := by
  induction es with
  | nil => rfl
  | cons e es ih => rw [slopeSum, ih, List.map_cons, List.sum_cons]

/-- The slope of a sum does not depend on the arrangement of its addends. -/
theorem slopeSum_perm {es fs : List Expr} (h : es.Perm fs) : slopeSum c ρ es = slopeSum c ρ fs := by
  rw [slopeSum_eq, slopeSum_eq, (h.map _).sum_eq]

/-- The slope of a product does not depend on the arrangement of its factors. -/
theorem slopeProduct_perm {es fs : List Expr} (h : es.Perm fs) :
    slopeProduct c ρ es = slopeProduct c ρ fs := by
  induction h with
  | nil => rfl
  | cons e h ih => rw [slopeProduct, slopeProduct, ih, valueProduct_perm h]
  | swap d e es =>
    simp only [slopeProduct, valueProduct]
    ring
  | trans _ _ ih₁ ih₂ => exact ih₁.trans ih₂

mutual

/-- A copy has the slope of the original. -/
theorem slope_copy : ∀ e : Expr, slope c ρ (copy e) = slope c ρ e
  | rational _ => rfl
  | symbol .. => rfl
  | sum s es => by rw [copy, slope, slopeSum_perm (sort_perm _), slopeSum_copyAll es, slope]
  | product s es => by
    rw [copy, slope, slopeProduct_perm (sort_perm _), slopeProduct_copyAll es, slope]
  | power s b x => by rw [copy, slope, integer_copy, value_copy, slope_copy b, slope]

theorem slopeSum_copyAll : ∀ es : List Expr, slopeSum c ρ (copyAll es) = slopeSum c ρ es
  | [] => rfl
  | e :: es => by rw [copyAll, slopeSum, slope_copy e, slopeSum_copyAll es, slopeSum]

theorem slopeProduct_copyAll : ∀ es : List Expr, slopeProduct c ρ (copyAll es) = slopeProduct c ρ es
  | [] => rfl
  | e :: es => by
    rw [copyAll, slopeProduct, slope_copy e, slopeProduct_copyAll es, value_copy,
      valueProduct_copyAll, slopeProduct]

end

end Slope

/-! ### Polynomials -/

/-- The node, if it is a power, is one of a letter to a whole number from two on. -/
def LetterPower : Expr → Prop
  | power _ b x => (∃ c, b = symbol false c) ∧ ∃ q, x = rational q ∧ ∃ k : ℤ, 2 ≤ k ∧ q.toRat = k
  | _ => True

/-- A power of a letter to a whole number from two on is a polynomial. -/
theorem everywhere_letterPower_power (s : Bool) (c : Char) {n : Nat} (hn : 2 ≤ n) :
    Everywhere LetterPower (power s (symbol false c) (.ofNat n)) :=
  everywhere_power_iff.2 ⟨⟨⟨c, rfl⟩, _, rfl, n, by omega, by simp⟩, everywhere_symbol_iff.2 trivial,
    everywhere_rational_iff.2 trivial⟩

/-- A fraction that is a whole number is so as an exponent. -/
theorem integer_of_toRat {q : Fraction} {k : ℤ} (h : q.toRat = k) : integer (rational q) = k := by
  have hden : (q.den : ℤ) ≠ 0 := Nat.cast_ne_zero.2 q.den_ne
  have hnum : q.signedNum = k * q.den := by
    rw [Fraction.toRat, div_eq_iff q.den_cast_ne] at h
    exact_mod_cast h
  rw [integer, hnum, Int.mul_ediv_cancel _ hden]

/-- A fraction that is a whole number simplifies to it. -/
theorem simplify_whole {q : Fraction} {k : ℤ} (h : q.toRat = k) :
    simplify (rational q) = .ok (rational (.ofInt k)) := by
  refine ComesTo.simplify_eq (n := 1) ?_ trivial (Fraction.reduce_ofInt k)
  rw [Fraction.toRat_ofInt, ← h]
  exact comesTo_rational 0 q

/-- The exponent of a derivative. -/
theorem simplify_pred {q : Fraction} {k : ℤ} (h : q.toRat = k) :
    simplify (mkSum false [rational q, rational (.ofInt (-1))]) =
      .ok (rational (.ofInt (k - 1))) := by
  have hsum := comesTo_mkSum false (a := rational q) (b := rational (.ofInt (-1)))
    (comesTo_rational 0 _) (comesTo_rational 0 _)
  refine ComesTo.simplify_eq (n := 2) ?_ ?_ (Fraction.reduce_ofInt _)
  · rw [h] at hsum
    simpa [sub_eq_add_neg] using hsum
  · exact grouped_sum_iff.2 (hereditary_grouped.sort_copyAll (by simp [Grouped]))

/-- A power of a letter yields its value, also the first power. -/
theorem yields_letter_power (s : Bool) (c : Char) {x : Expr} {k : ℤ} (hk : 1 ≤ k)
    (hx : simplify x = .ok (rational (.ofInt k))) :
    Yields (power s (symbol false c) x) fun ρ => signed s (ρ c ^ k) := by
  have ht : Total (power s (symbol false c) (rational (.ofInt k))) := by
    refine ⟨⟨_, rfl, rfl, ?_, .inl ⟨c, rfl⟩⟩, fun ρ => ⟨trivial, .inr ?_⟩⟩
    · exact Int.natAbs_ne_zero.2 (by omega)
    · rw [integer_ofInt]
      omega
  have h := (yields_of_total ht).congr
    (simplify_power_congr rfl (hx.trans (normal_ofInt k).simplify_eq.symm) s)
  simpa [value] using h

/-- A polynomial simplifies to something of the same value. -/
theorem faithful_of_letterPowers {e : Expr} (h : Everywhere LetterPower e) : Faithful e := by
  induction e using children_induction with
  | rational q => exact yields_of_total (hereditary_total.number q)
  | symbol s c => exact yields_of_total ⟨trivial, fun _ => trivial⟩
  | sum s es ih =>
    have hsum := yields_mkSum_of_faithful (fun e he => ih e he ((everywhere_sum_iff.1 h).2 e he)) s
    simpa only [Faithful, copy, mkSum, value] using hsum
  | product s es ih =>
    have hproduct :=
      yields_mkProduct_of_faithful (fun e he => ih e he ((everywhere_product_iff.1 h).2 e he)) s
    simpa only [Faithful, copy, mkProduct, value] using hproduct
  | power s b x =>
    obtain ⟨⟨c, rfl⟩, q, rfl, k, hk, hq⟩ := h.self
    have hpower := yields_letter_power s c (by omega) (simplify_whole hq)
    simpa [Faithful, copy, value, integer_of_toRat hq] using hpower

/-! ### Derivation -/

/-- The second expression is the derivative of the first one by the letter, as far as values
tell. -/
def HasSlope (c : Char) (e d : Expr) : Prop := Normal d ∧ Total d ∧ ∀ ρ, value ρ d = slope c ρ e

/-- A derivative simplifies to something of the same value. -/
theorem HasSlope.faithful {c : Char} {e d : Expr} (h : HasSlope c e d) : Faithful d :=
  h.1.faithful h.2.1

/-- A constant derivative. -/
theorem hasSlope_ofNat {c : Char} {e : Expr} {n : Nat} (h : ∀ ρ, slope c ρ e = n) :
    HasSlope c e (.ofNat n) := by
  refine ⟨Fraction.reduce_eq_self_iff.2 ⟨Nat.coprime_one_right n, fun _ => rfl⟩,
    hereditary_total.number _, fun ρ => ?_⟩
  rw [value_ofNat, h]

section Rules

variable {c : Char} {es ds : List Expr}

/-- The derivatives of a list, member by member. -/
theorem deriveAllBy_ok {x : Expr} {R : Expr → Expr → Prop}
    (h : ∀ e ∈ es, ∃ d, deriveBy x e = .ok d ∧ R e d) :
    ∃ ds, deriveAllBy x es = .ok ds ∧ List.Forall₂ R es ds := by
  induction es with
  | nil => exact ⟨[], rfl, .nil⟩
  | cons e es ih =>
    obtain ⟨he, hes⟩ := List.forall_mem_cons.1 h
    obtain ⟨d, hd, hR⟩ := he
    obtain ⟨ds, hds, hRs⟩ := ih hes
    refine ⟨d :: ds, ?_, .cons hR hRs⟩
    rw [deriveAllBy, hd, hds]
    rfl

/-- The products of the product rule are made of factors and of derivatives of factors. -/
theorem mem_productRule {before l : List Expr} (hl : l ∈ productRule before es ds) :
    ∀ e ∈ l, e ∈ before ∨ e ∈ es ∨ e ∈ ds := by
  induction es generalizing before ds with
  | nil => simp [productRule] at hl
  | cons a es ih =>
    cases ds with
    | nil => simp [productRule] at hl
    | cons d ds =>
      rw [productRule] at hl
      intro e he
      rcases List.mem_cons.1 hl with rfl | hl
      · simp only [List.mem_cons, List.mem_append, List.mem_reverse] at he ⊢
        tauto
      · have hmem := ih hl e he
        simp only [List.mem_cons] at hmem ⊢
        tauto

variable (h : List.Forall₂ (HasSlope c) es ds)

include h

theorem valueSum_of_hasSlope (ρ : Char → ℚ) : valueSum ρ ds = slopeSum c ρ es := by
  induction h with
  | nil => rfl
  | cons hd _ ih => rw [valueSum, hd.2.2, ih, slopeSum]

/-- The members before the ones that are derived are kept in all addends. -/
theorem valueSum_productRule (ρ : Char → ℚ) (before : List Expr) :
    valueSum ρ ((productRule before es ds).map (mkProduct false)) =
      valueProduct ρ before * slopeProduct c ρ es := by
  induction h generalizing before with
  | nil =>
    rw [slopeProduct, mul_zero]
    rfl
  | @cons e d es ds hd _ ih =>
    rw [productRule, List.map_cons, valueSum, ih, value_mkProduct, signed_false,
      valueProduct, hd.2.2, valueProduct_append, valueProduct_perm (List.reverse_perm before),
      valueProduct, slopeProduct]
    ring

/-- The sum of the derivatives yields the slope of a sum. -/
theorem yields_sumRule (s : Bool) : Yields (mkSum s ds) fun ρ => slope c ρ (sum s es) := by
  have hsum := yields_mkSum_of_faithful (forall_of_forall₂ h fun _ _ hd => hd.faithful) s
  simpa only [valueSum_of_hasSlope h, slope] using hsum

/-- The product rule yields the slope of a product. -/
theorem yields_productRule (hes : ∀ e ∈ es, Faithful e) (s : Bool) :
    Yields (mkSum s ((productRule [] es ds).map (mkProduct false))) fun ρ =>
      slope c ρ (product s es) := by
  have hds : ∀ d ∈ ds, Faithful d := forall_of_forall₂ h fun _ _ hd => hd.faithful
  have hall : ∀ a ∈ (productRule [] es ds).map (mkProduct false), Faithful a := by
    refine List.forall_mem_map.2 fun l hl => faithful_mkProduct (fun e he => ?_) false
    rcases mem_productRule hl e he with he | he | he
    · cases he
    · exact hes e he
    · exact hds e he
  have hsum := yields_mkSum_of_faithful hall s
  simpa only [valueSum_productRule h, valueProduct, one_mul, slope] using hsum

end Rules

/-- The rule for powers of letters yields the slope, without the sign of the power. -/
theorem yields_powerRule {c d : Char} {q : Fraction} {k : ℤ} (hk : 2 ≤ k)
    (hq : q.toRat = k) (s : Bool) {inner : Expr} (hinner : HasSlope c (symbol false d) inner) :
    Yields (powerDerivative (symbol false d) q inner) fun ρ =>
      slope c ρ (power s (symbol false d) (rational q)) := by
  have hnumber : Yields (rational q) fun _ => (k : ℚ) := by
    simpa [value, hq] using yields_of_total (hereditary_total.number q)
  have hlowered := yields_letter_power false d (by omega) (simplify_pred hq)
  have hfactors : List.Forall₂ (fun e w => Yields (copy e) w)
      [rational q, mkPower false (symbol false d)
        (mkSum false [rational q, rational (.ofInt (-1))]), inner]
      [fun _ => (k : ℚ), fun ρ => signed false (ρ d ^ (k - 1)), fun ρ => value ρ inner] := by
    -- The lowered exponent is still a sum, so this factor has the right value only once simplified.
    refine .cons hnumber (.cons ?_ (.cons hinner.faithful .nil))
    rw [copy_mkPower, mkPower, copy_mkSum]
    exact hlowered
  have hproduct := yields_mkProduct hfactors false
  have hslope (ρ : Char → ℚ) : slope c ρ (power s (symbol false d) (rational q)) =
      k * (ρ d ^ (k - 1) * value ρ inner) := by
    rw [slope, integer_of_toRat hq, value, signed_false, hinner.2.2, mul_assoc]
  simpa [powerDerivative, hslope] using hproduct

/-- The derivative of a polynomial by a letter. -/
theorem deriveBy_hasSlope {e : Expr} (h : Everywhere LetterPower e) (c : Char) :
    ∃ d, deriveBy (symbol false c) e = .ok d ∧ HasSlope c e d := by
  induction e using children_induction with
  | rational q => exact ⟨_, rfl, hasSlope_ofNat fun _ => by simp [slope]⟩
  | symbol s d =>
    refine ⟨_, rfl, ?_⟩
    split <;> rename_i heq <;> rw [beq_iff_eq, symbol.injEq] at heq
    · exact hasSlope_ofNat fun _ => by simp [slope, heq]
    · exact hasSlope_ofNat fun _ => by simp [slope, heq]
  | sum s es ih =>
    have hes := (everywhere_sum_iff.1 h).2
    obtain ⟨ds, hds, hall⟩ := deriveAllBy_ok fun e he => ih e he (hes e he)
    rw [deriveBy, hds]
    exact yields_sumRule hall s
  | product s es ih =>
    have hes := (everywhere_product_iff.1 h).2
    obtain ⟨ds, hds, hall⟩ := deriveAllBy_ok fun e he => ih e he (hes e he)
    rw [deriveBy, hds]
    -- The factors that an addend keeps have not been simplified before.
    exact yields_productRule hall (fun e he => faithful_of_letterPowers (hes e he)) s
  | power s b x ih _ =>
    obtain ⟨⟨d, rfl⟩, q, rfl, k, hk, hq⟩ := h.self
    obtain ⟨inner, hinner, hslope⟩ := ih (everywhere_symbol_iff.2 trivial)
    rw [deriveBy, hinner]
    exact yields_powerRule hk hq s hslope

theorem mem_of_mem_foldl_adjoin {p : Expr} {acc es : List Expr} (h : p ∈ es.foldl adjoin acc) :
    p ∈ acc ∨ p ∈ es := by
  induction es generalizing acc with
  | nil => exact .inl h
  | cons e es ih =>
    rcases ih h with h | h
    · rw [adjoin] at h
      split at h
      · exact .inl h
      · rcases List.mem_append.1 h with h | h
        · exact .inl h
        · exact .inr (List.mem_singleton.1 h ▸ List.mem_cons_self)
    · exact .inr (List.mem_cons_of_mem e h)

theorem exists_of_mem_partsAll {k : Shape} {p : Expr} {es : List Expr} (h : p ∈ partsAll k es) :
    ∃ e ∈ es, p ∈ parts k e := by
  induction es with
  | nil => simp [partsAll] at h
  | cons e es ih =>
    rw [partsAll] at h
    rcases mem_of_mem_foldl_adjoin h with h | h
    · exact ⟨e, List.mem_cons_self, h⟩
    · obtain ⟨d, hd, h⟩ := ih h
      exact ⟨d, List.mem_cons_of_mem e hd, h⟩

/-- The powers in a polynomial have numbers as exponents. -/
theorem exponent_of_mem_parts {e p : Expr} (h : Everywhere LetterPower e)
    (hp : p ∈ parts .power e) : ∃ s b q, p = power s b (rational q) := by
  induction e using children_induction with
  | rational | symbol => simp [parts] at hp
  | sum s es ih =>
    rw [parts, if_neg (by decide)] at hp
    obtain ⟨e, he, hp⟩ := exists_of_mem_partsAll hp
    exact ih e he ((everywhere_sum_iff.1 h).2 e he) hp
  | product s es ih =>
    rw [parts, if_neg (by decide)] at hp
    obtain ⟨e, he, hp⟩ := exists_of_mem_partsAll hp
    exact ih e he ((everywhere_product_iff.1 h).2 e he) hp
  | power s b x =>
    obtain ⟨-, q, rfl, -⟩ := h.self
    rw [parts, if_pos rfl] at hp
    exact ⟨false, copy b, q, List.mem_singleton.1 hp⟩

/-- The test for exponents that are numbers passes on polynomials. -/
theorem hasNumberExponents_of_letterPowers {e : Expr} (h : Everywhere LetterPower e) :
    e.hasNumberExponents = true := by
  refine List.all_eq_true.2 fun p hp => ?_
  obtain ⟨s, b, q, rfl⟩ := exponent_of_mem_parts h hp
  rfl

/-- The derivative of a polynomial exists and has the slope as its value. -/
theorem simplDerive_hasSlope {e : Expr} (h : Everywhere LetterPower e) (c : Char) :
    ∃ r, simplDerive e (symbol false c) = .ok r ∧ HasSlope c e r := by
  obtain ⟨d, hd, hslope⟩ := deriveBy_hasSlope h c
  refine ⟨d, ?_, hslope⟩
  have hderive : derive e (symbol false c) = .ok d := hd
  rw [simplDerive, hasNumberExponents_of_letterPowers h, hderive]
  exact hslope.1.simplify_eq

/-! ### Formal derivatives -/

open MvPolynomial (X pderiv)

/-- Only numbers, sums and products may be negated. -/
def PlainSign (n : Expr) : Prop := n.shape = .symbol ∨ n.shape = .power → n.negated = false

instance : DecidablePred PlainSign := fun n =>
  inferInstanceAs (Decidable (n.shape = .symbol ∨ n.shape = .power → n.negated = false))

theorem valueProduct_eq_eval {ρ : Char → ℚ} {es : List Expr}
    (h : ∀ e ∈ es, value ρ e = MvPolynomial.eval ρ (polynomial e)) :
    valueProduct ρ es = MvPolynomial.eval ρ (polynomialProduct es) := by
  induction es with
  | nil => rw [valueProduct, polynomialProduct, map_one]
  | cons e es ih =>
    obtain ⟨he, hes⟩ := List.forall_mem_cons.1 h
    rw [valueProduct, polynomialProduct, map_mul, he, ih hes]

/-- The value of a polynomial is that of the formal one. -/
theorem value_eq_eval {e : Expr} (h : Everywhere LetterPower e) (ρ : Char → ℚ) :
    value ρ e = MvPolynomial.eval ρ (polynomial e) := by
  induction e using children_induction with
  | rational q => simp [value, polynomial]
  | symbol s c => rw [value, polynomial, map_signed, MvPolynomial.eval_X]
  | sum s es ih =>
    have hes := (everywhere_sum_iff.1 h).2
    rw [value, polynomial, map_signed, valueSum_eq, polynomialSum_eq, map_list_sum, List.map_map]
    exact congrArg _ (congrArg _ (List.map_congr_left fun e he => ih e he (hes e he)))
  | product s es ih =>
    have hes := (everywhere_product_iff.1 h).2
    rw [value, polynomial, map_signed, valueProduct_eq_eval fun e he => ih e he (hes e he)]
  | power s b x =>
    obtain ⟨⟨d, rfl⟩, q, rfl, k, hk, hq⟩ := h.self
    obtain ⟨n, rfl⟩ := Int.eq_ofNat_of_zero_le (by omega : 0 ≤ k)
    simp [value, polynomial, map_signed, integer_of_toRat hq]

/-- The formal derivative keeps signs. -/
theorem pderiv_signed (c : Char) (s : Bool) (p : MvPolynomial Char ℚ) :
    pderiv c (signed s p) = signed s (pderiv c p) := by
  cases s <;> simp

/-- The product rule is the one of formal derivatives. -/
theorem slopeProduct_eq_eval {c : Char} {ρ : Char → ℚ} {es : List Expr}
    (hvalue : ∀ e ∈ es, value ρ e = MvPolynomial.eval ρ (polynomial e))
    (hslope : ∀ e ∈ es, slope c ρ e = MvPolynomial.eval ρ (pderiv c (polynomial e))) :
    slopeProduct c ρ es = MvPolynomial.eval ρ (pderiv c (polynomialProduct es)) := by
  induction es with
  | nil => simp [slopeProduct, polynomialProduct]
  | cons e es ih =>
    obtain ⟨he, hes⟩ := List.forall_mem_cons.1 hvalue
    obtain ⟨hd, hds⟩ := List.forall_mem_cons.1 hslope
    rw [slopeProduct, polynomialProduct, Derivation.leibniz, hd, he, valueProduct_eq_eval hes,
      ih hes hds]
    simp only [smul_eq_mul, map_add, map_mul]
    ring

/-- Without negated letters and powers, the slope is the value of the formal derivative. -/
theorem slope_eq_eval {e : Expr} (h : Everywhere LetterPower e)
    (hs : Everywhere PlainSign e) (c : Char)
    (ρ : Char → ℚ) : slope c ρ e = MvPolynomial.eval ρ (pderiv c (polynomial e)) := by
  induction e using children_induction with
  | rational q => simp [slope, polynomial]
  | symbol s d =>
    obtain rfl : s = false := hs.self (.inl rfl)
    rw [slope, polynomial, signed_false, MvPolynomial.pderiv_X]
    by_cases hd : d = c
    · subst hd
      simp
    · simp [hd]
  | sum s es ih =>
    have hes := (everywhere_sum_iff.1 h).2
    have hss := (everywhere_sum_iff.1 hs).2
    rw [slope, polynomial, pderiv_signed, map_signed, slopeSum_eq, polynomialSum_eq, map_list_sum,
      map_list_sum, List.map_map, List.map_map]
    exact congrArg _ (congrArg _ (List.map_congr_left fun e he => ih e he (hes e he) (hss e he)))
  | product s es ih =>
    have hes := (everywhere_product_iff.1 h).2
    have hss := (everywhere_product_iff.1 hs).2
    rw [slope, polynomial, pderiv_signed, map_signed, slopeProduct_eq_eval]
    · exact fun e he => value_eq_eval (hes e he) ρ
    · exact fun e he => ih e he (hes e he) (hss e he)
  | power s b x ih _ =>
    obtain ⟨⟨d, rfl⟩, q, rfl, k, hk, hq⟩ := h.self
    obtain rfl : s = false := hs.self (.inr rfl)
    obtain ⟨n, rfl⟩ := Int.eq_ofNat_of_zero_le (by omega : 0 ≤ k)
    have hbase := ih (everywhere_symbol_iff.2 trivial) (everywhere_symbol_iff.2 fun _ => rfl)
    have hpred : (n : ℤ) - 1 = ((n - 1 : Nat) : ℤ) := by omega
    have hletter : polynomial (symbol false d) = X d := by rw [polynomial, signed_false]
    have hpower : polynomial (power false (symbol false d) (rational q)) = X d ^ n := by
      rw [polynomial, hletter, integer_of_toRat hq, Int.toNat_natCast, signed_false]
    rw [slope, hbase, hletter, integer_of_toRat hq, value, signed_false, hpred,
      zpow_natCast, hpower, Derivation.leibniz_pow]
    simp [mul_assoc]

/-- The derivative of a polynomial without negated letters and powers has the values of the formal
derivative. -/
theorem simplDerive_eq_pderiv {e : Expr} (h : e.Everywhere LetterPower)
    (hs : e.Everywhere PlainSign)
    (c : Char) : ∃ r, e.simplDerive (symbol false c) = .ok r ∧ Grouped r ∧ ∀ ρ : Char → ℚ,
      Defined ρ r ∧ value ρ r = MvPolynomial.eval ρ (pderiv c (polynomial e)) := by
  obtain ⟨r, hr, -, ht, hv⟩ := simplDerive_hasSlope h c
  refine ⟨r, hr, ht.1, fun ρ => ⟨ht.2 ρ, ?_⟩⟩
  rw [hv, slope_eq_eval h hs]

/-- A negated product of equal sums and a power, where all letters are one. -/
theorem simplDerive_eq_pderiv_product :
    let x := symbol false 'x'
    let y := symbol false 'y'
    let e := product true [sum false [x, y], sum false [x, y], power false x (.ofNat 3)]
    e.Everywhere LetterPower ∧ e.Everywhere PlainSign ∧
      ∃ r, e.simplDerive x = .ok r ∧ value (fun _ => (1 : ℚ)) r = -16 := by
  intro x y e
  have hpower := everywhere_letterPower_power false 'x' (n := 3) (by decide)
  have h : e.Everywhere LetterPower := by
    simpa [e, x, y, everywhere_product_iff, everywhere_sum_iff, everywhere_symbol_iff, LetterPower]
      using hpower
  have hs : e.Everywhere PlainSign := by decide
  obtain ⟨r, hr, -, hv⟩ := simplDerive_eq_pderiv h hs 'x'
  refine ⟨h, hs, r, hr, ?_⟩
  rw [(hv _).2, ← slope_eq_eval h hs]
  have hxy : ¬ 'y' = 'x' := by decide
  have hint : integer (.ofNat 3) = 3 := rfl
  norm_num [e, x, y, slope, slopeProduct, slopeSum, value, valueSum, valueProduct, hxy, hint]

/-! ### Negated polynomials -/

theorem LetterPower.copy {n : Expr} (h : LetterPower n) : LetterPower n.copy := by
  cases n with
  | power s b x =>
    obtain ⟨⟨c, rfl⟩, q, rfl, hk⟩ := h
    exact ⟨⟨c, rfl⟩, q, rfl, hk⟩
  | _ => trivial

/-- A polynomial node is one under any sign. -/
theorem LetterPower.sign {n : Expr} (h : LetterPower n) (s : Bool) : LetterPower (n.sign s) := by
  cases n with
  | power => exact h
  | _ => trivial

theorem everywhere_letterPower_copy {e : Expr} (h : Everywhere LetterPower e) :
    Everywhere LetterPower e.copy := by
  have hlist {es : List Expr} (hes : ∀ e ∈ es, Everywhere LetterPower e.copy) :
      ∀ e ∈ sort (copyAll es), Everywhere LetterPower e := by
    intro e he
    rw [mem_sort, copyAll_eq_map] at he
    obtain ⟨d, hd, rfl⟩ := List.mem_map.1 he
    exact hes d hd
  induction e using children_induction with
  | rational | symbol => exact h
  | sum s es ih =>
    exact everywhere_sum_iff.2 ⟨trivial, hlist fun e he =>
      ih e he ((everywhere_sum_iff.1 h).2 e he)⟩
  | product s es ih =>
    exact everywhere_product_iff.2
      ⟨trivial, hlist fun e he => ih e he ((everywhere_product_iff.1 h).2 e he)⟩
  | power s b x ihb ihx =>
    obtain ⟨hp, hb, hx⟩ := everywhere_power_iff.1 h
    exact everywhere_power_iff.2 ⟨hp.copy, ihb hb, ihx hx⟩

/-- The opposite of a polynomial is a polynomial. -/
theorem everywhere_letterPower_flip {e : Expr} (h : Everywhere LetterPower e) :
    Everywhere LetterPower e.flip := by
  have hcopy := everywhere_letterPower_copy h
  exact hcopy.sign (hcopy.self.sign _)

/-- The letter, or a power of it, with any sign. -/
def PowerOf (c : Char) : Expr → Prop
  | symbol _ d => d = c
  | power _ b _ => b = symbol false c
  | _ => False

/-- Away from the powers of a letter, a negated expression has the opposite slope. -/
theorem slope_flip {e : Expr} (he : LetterPower e) {c : Char} (hc : ¬ PowerOf c e) (ρ : Char → ℚ) :
    slope c ρ e.flip = -slope c ρ e := by
  rw [flip, withSign]
  cases e with
  | rational q => simp [copy, Expr.sign, slope]
  | symbol s d =>
    have hd : ¬ d = c := hc
    simp [copy, Expr.sign, slope, hd]
  | sum s es =>
    rw [copy, Expr.sign, slope, slopeSum_perm (sort_perm _), slopeSum_copyAll, slope]
    cases s <;> simp [negated]
  | product s es =>
    rw [copy, Expr.sign, slope, slopeProduct_perm (sort_perm _), slopeProduct_copyAll, slope]
    cases s <;> simp [negated]
  | power s b x =>
    obtain ⟨⟨d, rfl⟩, q, rfl, -⟩ := he
    have hd : ¬ d = c := fun hd => hc (congrArg _ hd)
    simp [copy, Expr.sign, slope, hd]

/-- The derivatives of a polynomial and of its opposite.  They have opposite values, except for the
letter itself and its powers: a negated letter has derivative zero, and a negated power that of the
power. -/
theorem simplDerive_flip {e : Expr} (h : e.Everywhere LetterPower) (c : Char) :
    ∃ r r', e.simplDerive (symbol false c) = .ok r ∧ e.flip.simplDerive (symbol false c) = .ok r' ∧
      Grouped r ∧ Grouped r' ∧ ∀ ρ : Char → ℚ, (Defined ρ r ∧ Defined ρ r') ∧
        (¬ PowerOf c e → value ρ r' = -value ρ r) ∧
        (∀ t, e = symbol t c → value ρ r = (if t then 0 else 1) ∧ value ρ r' = if t then 1 else 0) ∧
        ∀ t x, e = power t (symbol false c) x →
          value ρ r = integer x * ρ c ^ (integer x - 1) ∧ value ρ r' = value ρ r := by
  obtain ⟨r, hr, -, ht, hv⟩ := simplDerive_hasSlope h c
  obtain ⟨r', hr', -, ht', hv'⟩ := simplDerive_hasSlope (everywhere_letterPower_flip h) c
  refine ⟨r, r', hr, hr', ht.1, ht'.1, fun ρ => ⟨⟨ht.2 ρ, ht'.2 ρ⟩, ?_, ?_, ?_⟩⟩
  · intro hc
    rw [hv, hv', slope_flip h.self hc]
  · rintro t rfl
    rw [hv, hv']
    cases t <;> simp [flip, withSign, copy, Expr.sign, slope, negated]
  · rintro t x rfl
    have hx : integer x.copy = integer x := integer_copy x
    rw [hv, hv']
    simp [flip, withSign, copy, Expr.sign, slope, value, hx]

/-- A sum, where the derivatives are opposite, and a power, where they agree. -/
theorem simplDerive_flip_square :
    let x := symbol false 'x'
    let square := power false x (.ofNat 2)
    let e := sum true [square, .ofNat 1]
    (e.Everywhere LetterPower ∧ ∃ r r', e.simplDerive x = .ok r ∧ e.flip.simplDerive x = .ok r' ∧
      value (fun _ => (3 : ℚ)) r' = -value (fun _ => (3 : ℚ)) r) ∧
    square.Everywhere LetterPower ∧ ∃ r r', square.simplDerive x = .ok r ∧
      square.flip.simplDerive x = .ok r' ∧
      value (fun _ => (3 : ℚ)) r = 6 ∧ value (fun _ => (3 : ℚ)) r' = 6 := by
  intro x square e
  have hsquare : square.Everywhere LetterPower := everywhere_letterPower_power false 'x' le_rfl
  have he : e.Everywhere LetterPower := everywhere_sum_iff.2 ⟨trivial, List.forall_mem_cons.2
    ⟨hsquare, List.forall_mem_singleton.2 (everywhere_rational_iff.2 trivial)⟩⟩
  obtain ⟨r, r', hr, hr', -, -, hv⟩ := simplDerive_flip he 'x'
  obtain ⟨u, u', hu, hu', -, -, hw⟩ := simplDerive_flip hsquare 'x'
  obtain ⟨hvalue, heq⟩ := (hw fun _ => 3).2.2.2 false (.ofNat 2) rfl
  have hsix : value (fun _ => (3 : ℚ)) u = 6 := by
    have hint : integer (.ofNat 2) = 2 := rfl
    rw [hvalue, hint]
    norm_num
  exact ⟨⟨he, r, r', hr, hr', (hv _).2.1 id⟩, hsquare, u, u', hu, hu', hsix, heq.trans hsix⟩

/-- The derivatives of a negated letter and of a negated power are not the opposites of those of the
letter and the power. -/
theorem simplDerive_flip_letter :
    let x := symbol false 'x'
    let square := power false x (.ofNat 2)
    (x.simplDerive x = .ok (.ofNat 1) ∧ x.flip.simplDerive x = .ok (.ofNat 0) ∧ (0 : ℚ) ≠ -1) ∧
      square.simplDerive x = square.flip.simplDerive x ∧
      square.simplDerive x = .ok (product false [.ofNat 2, x]) ∧
        value (fun _ => (1 : ℚ)) (product false [.ofNat 2, x]) ≠
          -value (fun _ => (1 : ℚ)) (product false [.ofNat 2, x]) := by
  intro x square
  refine ⟨⟨rfl, rfl, by norm_num⟩, rfl, by with_unfolding_all rfl, ?_⟩
  norm_num [x, value, valueProduct]

end SymScript.Expr
