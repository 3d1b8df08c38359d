import Mathlib.Algebra.Group.Int.Even
import Mathlib.Algebra.Ring.Parity
import Mathlib.Tactic.NormNum
import SymScript.Proofs.Congruence
import SymScript.Proofs.Simplified

/-!
# Whole powers of polynomials

What a power simplifies to when its base is a polynomial, written without powers, and its exponent
is a whole number.  Outside the zeroth power there is always a result, and it has the value of the
power up to its sign.  The sign comes out wrong for some negated bases: a base that is a power gives
its sign away without a look at the exponent, and any other base hands it to the power.  The zeroth
power of a base that is not a number is one if it is negated, and fails otherwise.
-/

namespace SymScript

/-! ### Whole numbers -/

namespace Fraction

/-- A whole number has its own value. -/
@[simp] theorem toRat_ofInt (z : ℤ) : (ofInt z).toRat = z := by
  rw [toRat, ofInt, signedNum]
  rcases lt_or_ge z 0 with h | h
  · simp [h, abs_of_neg]
  · simp [h.not_gt, abs_of_nonneg h]

/-- A whole number is in lowest terms. -/
theorem reduce_ofInt (z : ℤ) : (ofInt z).reduce = ofInt z := by
  refine reduce_eq_self_iff.2 ⟨Nat.coprime_one_right _, fun h => ?_⟩
  have hz : z = 0 := Int.natAbs_eq_zero.1 h
  rw [hz]
  rfl

@[simp] theorem signedNum_ofInt (z : ℤ) : (ofInt z).signedNum = z := by
  have h : ((ofInt z).signedNum : ℚ) / ((1 : Nat) : ℚ) = z := toRat_ofInt z
  rw [Nat.cast_one, div_one] at h
  exact_mod_cast h

theorem isZero_ofInt {z : ℤ} (h : z ≠ 0) : (ofInt z).isZero = false := by
  simpa [isZero, ofInt] using h

theorem isOne_ofInt {z : ℤ} (h : z ≠ 1) : (ofInt z).isOne = false := by
  by_contra hone
  have hz : z.natAbs = 1 ∧ ¬ z < 0 := by simpa [isOne, ofInt] using hone
  omega

theorem isZero_of_isOne {q : Fraction} (h : q.isOne = true) : q.isZero = false := by
  have hq : q.num = q.den ∧ q.negated = false := by simpa [isOne] using h
  simpa [isZero, hq.1] using q.den_ne

/-- A whole number in lowest terms is that of an integer. -/
theorem eq_ofInt {q : Fraction} (hq : q.reduce = q) (hd : q.den = 1) : q = ofInt q.signedNum := by
  refine eq_of_toRat_eq hq (reduce_ofInt _) ?_
  rw [toRat_ofInt, toRat, hd, Nat.cast_one, div_one]

end Fraction

namespace Expr

@[simp] theorem integer_ofInt (z : ℤ) : integer (rational (.ofInt z)) = z := by
  rw [integer_rational rfl, Fraction.signedNum_ofInt]

/-- A whole number is in normal form. -/
theorem normal_ofInt (z : ℤ) : Normal (rational (.ofInt z)) := Fraction.reduce_ofInt z

/-- What comes to a number simplifies to that number in lowest terms. -/
theorem ComesTo.simplify_eq {n : Nat} {e : Expr} {q : Fraction} (h : ComesTo n e q.toRat)
    (he : Grouped e) (hq : q.reduce = q) : simplify e = .ok (rational q) := by
  obtain ⟨p, hp, hv⟩ := h
  have hn : Normal (rational p) := he.algebraic.normal_of_simplifyWithin hp
  rw [simplify_eq_of_simplifyWithin hp, Fraction.eq_of_toRat_eq hn hq hv]

/-- Whole numbers are multiplied. -/
theorem simplify_product_ofInt (k z : ℤ) :
    simplify (mkProduct false [rational (.ofInt k), rational (.ofInt z)]) =
      .ok (rational (.ofInt (k * z))) := by
  have h := comesTo_mkProduct false (a := rational (.ofInt k)) (b := rational (.ofInt z))
    (comesTo_rational 0 _) (comesTo_rational 0 _)
  refine ComesTo.simplify_eq (n := 2) ?_ ?_ (Fraction.reduce_ofInt _)
  · simpa using h
  · exact grouped_product_iff.2 (hereditary_grouped.sort_copyAll (by simp [Grouped]))

/-! ### One step of a power -/

section Step

variable {b x : Expr} (hb : Normal b) (hx : Normal x) (hnum : b.isNumber = false)

include hb hx hnum

/-- A power of a base that is not a number is rewritten by one rule. -/
theorem simplify_power_normal (s : Bool) {n : Nat} (hn : (power s b x).simplifyBound ≤ n) :
    simplify (power s b x) = rewritePower (simplifyWithin n) s b x >>= fun r =>
      if powerRule b x != .negatedBase && r == .power s b x then .ok r else simplifyWithin n r := by
  rw [simplify_power_eq s b x hn, hb.simplify_eq, hx.simplify_eq]
  change finishPower (simplifyWithin n) s b x = _
  rw [finishPower, exactPower?_of_other hnum]
  rfl

/-- If one rule leads to a normal form, the power simplifies to it. -/
theorem simplify_power_of_rewrite {s : Bool} {m : Nat} {r : Expr}
    (hr : rewritePower (simplifyWithin m) s b x = .ok r) (hn : Normal r) :
    simplify (power s b x) = .ok r := by
  -- A depth that suffices for the rule, for the power and for its result.
  obtain ⟨n, hm, hpower, hresult⟩ : ∃ n, m ≤ n ∧ (power s b x).simplifyBound ≤ n ∧
      r.simplifyBound ≤ n :=
    ⟨max m (max (power s b x).simplifyBound r.simplifyBound), by omega⟩
  have hrn : rewritePower (simplifyWithin n) s b x = .ok r := by
    refine (Refines.rewritePower (simplifyWithin_mono hm) s b x ?_).trans hr
    rw [hr]
    rintro ⟨⟩
  rw [simplify_power_normal hb hx hnum s hpower, hrn]
  change (if _ then _ else _) = _
  split
  · rfl
  · rw [simplifyWithin_eq_simplify r hresult, hn.simplify_eq]

end Step

/-- A power of a power has its exponents multiplied. -/
theorem powerRule_power (t : Bool) (c x : Expr) {q : Fraction} (hz : q.isZero = false)
    (ho : q.isOne = false) : powerRule (power t c x) (rational q) = .nested c x := by
  simp [powerRule, rational?, hz, ho]

section Rules

variable {b : Expr} {q : Fraction}

/-- For other bases only their sign matters. -/
theorem powerRule_of_other (hnum : b.isNumber = false) (hp : b.shape ≠ .power)
    (hz : q.isZero = false) (ho : q.isOne = false) :
    powerRule b (rational q) = if b.negated then .negatedBase else .none := by
  cases b with
  | rational => cases hnum
  | power => exact absurd rfl hp
  | _ => simp [powerRule, rational?, hz, ho]

variable (hb : Normal b) (hnum : b.isNumber = false) (hq : Normal (rational q))

include hb hnum

/-- The zeroth power is an accident of its sign. -/
theorem simplify_zeroth_power (s : Bool) : simplify (power s b (rational (.ofInt 0))) =
    if s then .ok (.ofNat 1) else .error .zeroDenominator := by
  have hrule : powerRule b (rational (.ofInt 0)) = .zeroExponent := by
    cases b with
    | rational => cases hnum
    | _ => rfl
  cases s with
  | true =>
    refine simplify_power_of_rewrite (m := 0) hb (normal_ofInt 0) hnum ?_ rfl
    rw [rewritePower, hrule]
    rfl
  | false =>
    rw [simplify_power_normal hb (normal_ofInt 0) hnum false le_rfl, rewritePower, hrule]
    rfl

include hq

/-- The first power of a normal form is the normal form. -/
theorem simplify_unit_power (ho : q.isOne = true) (s : Bool) :
    simplify (power s b (rational q)) = .ok (b.sign (s != b.negated)) := by
  refine simplify_power_of_rewrite (m := 0) hb hq hnum ?_ (hb.sign_other hnum _)
  have hrule : powerRule b (rational q) = .oneExponent := by
    cases b with
    | rational => cases hnum
    | _ => simp [powerRule, rational?, Fraction.isZero_of_isOne ho, ho]
  rw [rewritePower, hrule, ← hb.withSign_eq]

/-- A base that is not a power hands its sign to the power. -/
theorem simplify_other_power (hp : b.shape ≠ .power) (hz : q.isZero = false) (ho : q.isOne = false)
    (s : Bool) : simplify (power s b (rational q)) =
      .ok (power (s != b.negated) (b.sign false) (rational q)) := by
  have hn : Normal (power (s != b.negated) (b.sign false) (rational q)) := by
    refine normal_power_iff.2 ⟨hb.sign_false, hq, ?_, ?_, sign_negated _ _, ?_⟩
    · rwa [sign_isNumber]
    · rwa [sign_shape]
    · rintro _ ⟨⟩
      exact ⟨hz, ho⟩
  refine simplify_power_of_rewrite (m := 0) hb hq hnum ?_ hn
  rw [rewritePower, powerRule_of_other hnum hp hz ho]
  cases hs : b.negated with
  | false =>
    rw [Bool.bne_false, sign_eq_self hs, ← mkPower_eq hb.copy_eq hq.copy_eq]
    rfl
  | true =>
    rw [Bool.bne_true, ← mkPower_eq hb.sign_false.copy_eq hq.copy_eq, ← hb.withSign_eq]
    rfl

end Rules

section Base

variable {b : Expr} (hb : IsBase b) {q : Fraction} (hq : Normal (rational q))
  (hz : q.isZero = false)

include hb hq hz

omit hq in
/-- A base stays bare for the exponent one. -/
theorem IsBase.raised_cases :
    raised b (rational q) = b ∨ raised b (rational q) = power false b (rational q) := by
  cases ho : q.isOne with
  | true => exact .inl (by simp [raised, hz, ho])
  | false =>
    refine .inr ?_
    rw [← mkPower_eq hb.normal.copy_eq rfl]
    simp [raised, hz, ho]

omit hq in
theorem IsBase.negated_raised : (raised b (rational q)).negated = false := by
  rcases hb.raised_cases hz with h | h <;> rw [h]
  · exact hb.unsigned
  · rfl

/-- A base with a number as exponent is in normal form. -/
theorem IsBase.normal_sign_raised (s : Bool) : Normal ((raised b (rational q)).sign s) := by
  refine (hb.normal_raised hq).sign_other ?_ s
  rcases hb.raised_cases hz with h | h <;> rw [h]
  · exact hb.noNumber
  · rfl

/-- A power of a base simplifies to it as it stands. -/
theorem IsBase.simplify_power (s : Bool) :
    simplify (power s b (rational q)) = .ok ((raised b (rational q)).sign s) := by
  cases ho : q.isOne with
  | true =>
    rw [simplify_unit_power hb.normal hb.noNumber hq ho, hb.unsigned, Bool.bne_false]
    simp [raised, hz, ho]
  | false =>
    rw [simplify_other_power hb.normal hb.noNumber hq hb.noPower hz ho, hb.unsigned, Bool.bne_false,
      sign_eq_self hb.unsigned]
    simp [raised, hz, ho, mkPower_eq hb.normal.copy_eq hq.copy_eq, Expr.sign]

end Base

/-- What stands below the exponent of a normal form is a base. -/
theorem Normal.isBase_of_power {t : Bool} {c x : Expr} (h : Normal (power t c x)) : IsBase c := by
  obtain ⟨hc, -, hform⟩ := normal_power_iff.1 h
  exact ⟨hc, hform.noNumber, hform.noPower, hform.unsigned⟩

/-- A base that is a power loses its sign. -/
theorem simplify_nested_power {t : Bool} {c : Expr} {k z : ℤ}
    (hb : Normal (power t c (rational (.ofInt k)))) (hk : k ≠ 0) (hz : z ≠ 0) (ho : z ≠ 1)
    (s : Bool) :
    simplify (power s (power t c (rational (.ofInt k))) (rational (.ofInt z))) =
      .ok ((raised c (rational (.ofInt (k * z)))).sign s) := by
  have hbase := hb.isBase_of_power
  have hq := normal_ofInt (k * z)
  have hkz := Fraction.isZero_ofInt (mul_ne_zero hk hz)
  let joined := mkPower s c (mkProduct false [rational (.ofInt k), rational (.ofInt z)])
  have hjoined : simplify joined = .ok ((raised c (rational (.ofInt (k * z)))).sign s) := by
    rw [← hbase.simplify_power hq hkz]
    change simplify (power s c.copy (copy (mkProduct ..))) = _
    rw [hbase.normal.copy_eq, copy_mkProduct]
    exact simplify_power_congr rfl ((simplify_product_ofInt k z).trans hq.simplify_eq.symm) s
  refine simplify_power_of_rewrite (m := joined.simplifyBound) hb (normal_ofInt z) rfl ?_
    (hbase.normal_sign_raised hq hkz s)
  rw [rewritePower, powerRule_power t c _ (Fraction.isZero_ofInt hz) (Fraction.isOne_ofInt ho)]
  exact hjoined

/-! ### Values -/

/-- A sign leaves an even power and stays with an odd one. -/
theorem signed_zpow {K : Type*} [Field K] (t : Bool) (a : K) (z : ℤ) :
    signed t a ^ z = signed (t && decide (Odd z)) (a ^ z) := by
  cases t with
  | false => rfl
  | true =>
    by_cases h : Odd z
    · simp [h, h.neg_zpow]
    · simp [h, (Int.not_odd_iff_even.1 h).neg_zpow]

/-- An expression without powers. -/
def PowerFree (e : Expr) : Prop := e.Everywhere fun n => n.shape ≠ .power

instance : DecidablePred PowerFree := fun e =>
  inferInstanceAs (Decidable (e.Everywhere fun n => n.shape ≠ .power))

/-- Without powers nothing is undefined. -/
theorem PowerFree.total {e : Expr} (h : PowerFree e) : Total e := by
  induction e using children_induction with
  | rational q => exact hereditary_total.number q
  | symbol s c => exact ⟨trivial, fun _ => trivial⟩
  | sum s es ih =>
    exact hereditary_total.sum_iff.2 fun e he => ih e he ((everywhere_sum_iff.1 h).2 e he)
  | product s es ih =>
    exact hereditary_total.product_iff.2 fun e he => ih e he ((everywhere_product_iff.1 h).2 e he)
  | power s b x => exact absurd rfl (everywhere_power_iff.1 h).1

/-- The exponent of the node, if it is a power, is an integer. -/
def WholeExponent : Expr → Prop
  | power _ _ x => ∃ k : ℤ, x = rational (.ofInt k)
  | _ => True

/-- All exponents of a grouped expression are whole numbers. -/
theorem Grouped.everywhere_wholeExponent {e : Expr} (h : Grouped e) :
    Everywhere WholeExponent e := by
  induction e using children_induction with
  | rational q => exact everywhere_rational_iff.2 trivial
  | symbol s c => exact everywhere_symbol_iff.2 trivial
  | sum s es ih =>
    exact everywhere_sum_iff.2 ⟨trivial, fun e he => ih e he (grouped_sum_iff.1 h e he)⟩
  | product s es ih =>
    exact everywhere_product_iff.2 ⟨trivial, fun e he => ih e he (grouped_product_iff.1 h e he)⟩
  | power s b x ihb _ =>
    rw [Grouped] at h
    obtain ⟨q, rfl, hd, hq, hb⟩ := h
    refine everywhere_power_iff.2
      ⟨⟨_, congrArg _ (Fraction.eq_ofInt (Fraction.reduce_of_whole hd hq) hd)⟩, ?_,
        everywhere_rational_iff.2 trivial⟩
    rcases hb with ⟨c, rfl⟩ | ⟨hb, -⟩
    · exact everywhere_symbol_iff.2 trivial
    · exact ihb hb

theorem WholeExponent.sign {e : Expr} (h : WholeExponent e) (s : Bool) :
    WholeExponent (e.sign s) := by
  cases e with
  | power => exact h
  | _ => trivial

theorem everywhere_wholeExponent_sign {e : Expr} (h : Everywhere WholeExponent e) (s : Bool) :
    Everywhere WholeExponent (e.sign s) :=
  h.sign (h.self.sign s)

/-- The expression has whole exponents, and the value of a power of `b` wherever `b` is not zero. -/
def IsPower (s : Bool) (b : Expr) (z : ℤ) (r : Expr) : Prop :=
  r.Everywhere WholeExponent ∧ ∀ ρ : Char → ℚ, value ρ b ≠ 0 →
    Defined ρ r ∧ value ρ r = signed s (value ρ b ^ z)

/-- The first power of a total expression. -/
theorem isPower_first {b : Expr} (ht : Total b) (s : Bool) :
    IsPower s b 1 (b.sign (s != b.negated)) := by
  refine ⟨everywhere_wholeExponent_sign ht.1.everywhere_wholeExponent _, fun ρ _ =>
    ⟨(ht.2 ρ).sign _, ?_⟩⟩
  rw [value_sign, zpow_one]
  cases s <;> cases b.negated <;> rfl

/-- The sign that a power takes over from its base is right at an odd exponent. -/
theorem isPower_other {b : Expr} (ht : Total b) (s : Bool) (z : ℤ) :
    IsPower (s != (b.negated && !decide (Odd z))) b z
      (power (s != b.negated) (b.sign false) (rational (.ofInt z))) := by
  refine ⟨everywhere_power_iff.2 ⟨⟨z, rfl⟩,
    everywhere_wholeExponent_sign ht.1.everywhere_wholeExponent _,
    everywhere_rational_iff.2 trivial⟩, fun ρ hρ => ⟨⟨(ht.2 ρ).sign _, .inl ?_⟩, ?_⟩⟩
  · rw [value_sign]
    cases b.negated
    · exact hρ
    · exact neg_ne_zero.2 hρ
  · rw [value, value_sign, integer_ofInt, signed_zpow, signed_signed]
    cases s <;> cases b.negated <;> cases decide (Odd z) <;> rfl

/-- The sign that a base drops is dropped rightly at an even exponent. -/
theorem IsBase.isPower_nested {t : Bool} {c : Expr} {k z : ℤ} (hc : IsBase c)
    (ht : Total (power t c (rational (.ofInt k)))) (hk : k ≠ 0) (hz : z ≠ 0) (s : Bool) :
    IsPower (s != (t && decide (Odd z))) (power t c (rational (.ofInt k))) z
      ((raised c (rational (.ofInt (k * z)))).sign s) := by
  have hkz := Fraction.isZero_ofInt (mul_ne_zero hk hz)
  refine ⟨everywhere_wholeExponent_sign ?_ s, fun ρ hρ => ⟨Defined.sign ?_ s, ?_⟩⟩
  · obtain ⟨-, hwhole, -⟩ := everywhere_power_iff.1 ht.1.everywhere_wholeExponent
    rcases hc.raised_cases hkz with h | h <;> rw [h]
    · exact hwhole
    · exact everywhere_power_iff.2 ⟨⟨_, rfl⟩, hwhole, everywhere_rational_iff.2 trivial⟩
  · have hdefined := ht.2 ρ
    rw [Defined] at hdefined
    rcases hc.raised_cases hkz with h | h <;> rw [h]
    · exact hdefined.1
    · refine ⟨hdefined.1, .inl fun h0 => hρ ?_⟩
      rw [value, h0, integer_ofInt, zero_zpow k hk, signed_zero]
  · rw [value_sign, hc.negated_raised hkz, value_raised c rfl, Fraction.signedNum_ofInt, value,
      integer_ofInt, signed_zpow, ← zpow_mul, signed_signed]
    cases s <;> cases t && decide (Odd z) <;> rfl

/-- The sign of the base does not come out as it should: it is dropped at an odd exponent, or kept
at an even one. -/
def WrongSign (b : Expr) (z : ℤ) : Prop :=
  b.negated = true ∧ z ≠ 1 ∧ if b.shape = .power then Odd z else Even z

instance (b : Expr) (z : ℤ) : Decidable (WrongSign b z) :=
  inferInstanceAs (Decidable (_ ∧ _ ∧ _))

/-- How a power of a normal base comes out, for each exponent other than zero. -/
theorem Normal.simplify_whole_power {b : Expr} (hb : Normal b) (ht : Total b)
    (hnum : b.isNumber = false) (s : Bool) {z : ℤ} (hz : z ≠ 0) :
    ∃ r, simplify (power s b (rational (.ofInt z))) = .ok r ∧
      IsPower (s != decide (WrongSign b z)) b z r := by
  by_cases ho : z = 1
  · subst ho
    have hright : decide (WrongSign b 1) = false := by simp [WrongSign]
    rw [hright, Bool.bne_false]
    exact ⟨_, simplify_unit_power hb hnum (normal_ofInt 1) rfl s, isPower_first ht s⟩
  by_cases hp : b.shape = .power
  · obtain ⟨t, c, x, rfl⟩ : ∃ t c x, b = power t c x := by
      cases b with
      | power t c x => exact ⟨t, c, x, rfl⟩
      | _ => cases hp
    obtain ⟨k, rfl⟩ := (everywhere_power_iff.1 ht.1.everywhere_wholeExponent).1
    have hk : k ≠ 0 := by
      rintro rfl
      cases ((normal_power_iff.1 hb).2.2.noUnit _ rfl).1
    have hwrong : decide (WrongSign (power t c (rational (.ofInt k))) z) =
        (t && decide (Odd z)) := by
      simp [WrongSign, ho, negated, shape]
    rw [hwrong]
    exact ⟨_, simplify_nested_power hb hk hz ho s, hb.isBase_of_power.isPower_nested ht hk hz s⟩
  · have hwrong : decide (WrongSign b z) = (b.negated && !decide (Odd z)) := by
      simp [WrongSign, ho, hp, ← Int.not_odd_iff_even]
    rw [hwrong]
    exact ⟨_, simplify_other_power hb hnum (normal_ofInt z) hp (Fraction.isZero_ofInt hz)
      (Fraction.isOne_ofInt ho) s, isPower_other ht s z⟩

/-- A whole power of a polynomial whose result is not a number.  The zeroth power fails, or is one
if it is negated.  Every other power has a result, whose powers have whole exponents and which has a
value wherever the base is not zero: that of the power, except for the sign of a negated base. -/
theorem simplify_power_value {b : Expr} (hb : PowerFree b)
    (hnum : ∀ q, simplify b ≠ .ok (rational q)) :
    ∃ b', simplify b = .ok b' ∧ ∀ (s : Bool) (z : ℤ),
      (z = 0 → simplify (power s b (rational (.ofInt z))) =
        if s then .ok (.ofNat 1) else .error .zeroDenominator) ∧
      (z ≠ 0 → ∃ r, simplify (power s b (rational (.ofInt z))) = .ok r ∧
        r.Everywhere WholeExponent ∧ ∀ ρ : Char → ℚ, value ρ b ≠ 0 → Defined ρ r ∧
          value ρ r = signed (s != decide (WrongSign b' z)) (value ρ b ^ z)) := by
  obtain ⟨b', hb', hn, ht, hv⟩ := yields_of_total hb.total
  have hother : b'.isNumber = false := by
    cases b' with
    | rational q => exact absurd hb' (hnum q)
    | _ => rfl
  refine ⟨b', hb', fun s z => ?_⟩
  rw [simplify_power_congr (hb'.trans hn.simplify_eq.symm) rfl s]
  constructor
  · rintro rfl
    exact simplify_zeroth_power hn hother s
  · intro hz
    simpa only [IsPower, hv] using hn.simplify_whole_power ht hother s hz

/-- The negated square of a letter, to the third negative power. -/
theorem simplify_power_value_negatedSquare :
    let b := product true [symbol false 'x', symbol false 'x']
    PowerFree b ∧ (∀ q, simplify b ≠ .ok (rational q)) ∧
      ∃ r, simplify (power true b (rational (.ofInt (-3)))) = .ok r ∧
        value (fun _ => (2 : ℚ)) r = value (fun _ => (2 : ℚ)) b ^ (-3 : ℤ) := by
  intro b
  have hsquare : simplify b = .ok (power true (symbol false 'x') (.ofNat 2)) := by
    with_unfolding_all rfl
  have hfree : PowerFree b := by decide
  have hnum (q : Fraction) : simplify b ≠ .ok (rational q) := by
    rw [hsquare]
    rintro ⟨⟩
  obtain ⟨b', hb', h⟩ := simplify_power_value hfree hnum
  obtain rfl := Except.ok.inj (hsquare.symm.trans hb')
  obtain ⟨r, hr, -, hv⟩ := (h true (-3)).2 (by decide)
  have hwrong : WrongSign (power true (symbol false 'x') (.ofNat 2)) (-3) := by decide
  refine ⟨hfree, hnum, r, hr, ?_⟩
  rw [(hv _ ?_).2, decide_eq_true hwrong]
  · rfl
  · norm_num [b, value, valueProduct]

/-- The zeroth power of a letter fails, the square of a negated letter is negative, and the cube of
a negated square is positive. -/
theorem simplify_power_wrong :
    let x := symbol false 'x'
    let y := symbol true 'x'
    let z := product true [x, x]
    let square := power true x (.ofNat 2)
    let sixth := power false x (.ofNat 6)
    simplify (power false x (.ofNat 0)) = .error .zeroDenominator ∧
      (simplify (power false y (.ofNat 2)) = .ok square ∧
        value (fun _ => (1 : ℚ)) square ≠ value (fun _ => (1 : ℚ)) y ^ 2) ∧
      simplify (power false z (.ofNat 3)) = .ok sixth ∧
        value (fun _ => (1 : ℚ)) sixth ≠ value (fun _ => (1 : ℚ)) z ^ 3 := by
  intro x y z square sixth
  refine ⟨rfl, ⟨rfl, ?_⟩, by with_unfolding_all rfl, ?_⟩
  · norm_num [square, x, y, value]
  · norm_num [sixth, x, z, value, valueProduct]

end Expr

end SymScript
