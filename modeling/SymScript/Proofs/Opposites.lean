import SymScript.Proofs.TotalOrder

/-!
# Simplifying opposites

The sign of a node travels through the rules of simplification beside everything else.  A node and
its opposite therefore simplify to opposites, unless both come to numbers: a number has lost its
sign where it comes from a power of two numbers.
-/

namespace SymScript.Expr

/-- Two expressions that are opposite, or both numbers. -/
def Opposed (r r' : Expr) : Prop := r' = r.opposite ∨ r.isNumber = true ∧ r'.isNumber = true

@[simp] theorem isNumber_opposite (e : Expr) : e.opposite.isNumber = e.isNumber := sign_isNumber _ e

theorem opposite_withSign (s : Bool) (e : Expr) : (e.withSign s).opposite = e.withSign (!s) := by
  rw [withSign, withSign, opposite, sign_sign, sign_negated]

theorem opposed_numbers (q q' : Fraction) : Opposed (rational q) (rational q') := .inr ⟨rfl, rfl⟩

/-- An expression under both signs. -/
theorem opposed_withSign {s t : Bool} (e : Expr) (h : t = !s) :
    Opposed (e.withSign s) (e.withSign t) := .inl (by rw [opposite_withSign, h])

/-! ### Rules -/

/-- Joined under opposite signs, addends are opposed. -/
theorem joinSum_opposed (s : Bool) (es : List Expr) : Opposed (joinSum s es) (joinSum (!s) es) := by
  rcases es with _ | ⟨e, _ | ⟨d, es⟩⟩
  · exact opposed_numbers _ _
  · refine opposed_withSign e ?_
    cases s <;> cases e.negated <;> rfl
  · exact .inl rfl

/-- Joined under opposite signs, factors are opposed. -/
theorem joinProduct_opposed (s : Bool) (es : List Expr) :
    Opposed (joinProduct s es) (joinProduct (!s) es) := by
  rcases es with _ | ⟨e, _ | ⟨d, es⟩⟩
  · exact .inl rfl
  · exact opposed_withSign e rfl
  · exact .inl rfl

/-- The sign of a product changes with the sign in front. -/
theorem productSign_not (s : Bool) (es : List Expr) : productSign (!s) es = !productSign s es := by
  induction es generalizing s with
  | nil => rfl
  | cons e es ih =>
    have h : ((!s) != e.negated) = !(s != e.negated) := by cases s <;> cases e.negated <;> rfl
    exact (congrArg (productSign · es) h).trans (ih _)

variable {f : Expr → Except AlgebraError Expr}

/-- What the addends are collected to depends on the sign of the sum by a sign. -/
theorem collectSum_opposed {s : Bool} {es : List Expr} {r r' : Expr}
    (hr : collectSum f s es = .ok r) (hr' : collectSum f (!s) es = .ok r') : Opposed r r' := by
  rw [collectSum_eq_bind] at hr hr'
  obtain ⟨ts, hts, hr⟩ := bind_eq_ok hr
  obtain ⟨ts', hts', hr'⟩ := bind_eq_ok hr'
  cases hts.symm.trans hts'
  cases hr
  cases hr'
  exact joinSum_opposed s _

/-- Collecting factors under opposite signs gives opposed results. -/
theorem collectProduct_opposed {s : Bool} {es : List Expr} {r r' : Expr}
    (hr : collectProduct f s es = .ok r) (hr' : collectProduct f (!s) es = .ok r') :
    Opposed r r' := by
  rw [collectProduct_eq_bind] at hr hr'
  obtain ⟨bs, hbs, hr⟩ := bind_eq_ok hr
  obtain ⟨bs', hbs', hr'⟩ := bind_eq_ok hr'
  cases hbs.symm.trans hbs'
  simp only at hr hr'
  split at hr
  · rw [if_pos ‹_›] at hr'
    cases hr
    cases hr'
    exact opposed_numbers _ _
  rw [if_neg ‹_›] at hr'
  split at hr
  · rw [if_pos ‹_›] at hr'
    cases hr
    cases hr'
    exact opposed_numbers _ _
  · rw [if_neg ‹_›] at hr'
    cases hr
    cases hr'
    exact joinProduct_opposed s _

/-! ### Rounds -/

section Round

variable (hf : ∀ e r r', f e = .ok r → f e.opposite = .ok r' → Opposed r r')
  (hnumber : ∀ q r, f (rational q) = .ok r → r.isNumber = true)

include hf hnumber

/-- Opposed outcomes of a round stay opposed, whether they are kept or simplified again.  The round
of a power may count as a change without one, which is what `c` stands for. -/
theorem Opposed.round {e r r' t t' : Expr} {c : Bool} (he : e.isNumber = false) (h : Opposed r r')
    (ht : (if c && r == e then .ok r else f r) = .ok t)
    (ht' : (if c && r' == e.opposite then .ok r' else f r') = .ok t') : Opposed t t' := by
  rcases h with rfl | ⟨hr, hr'⟩
  · have hiff : (c && r.opposite == e.opposite) = (c && r == e) := by
      rw [Bool.eq_iff_iff, Bool.and_eq_true, Bool.and_eq_true, beq_iff_eq, beq_iff_eq,
        Function.Injective.eq_iff (Function.LeftInverse.injective opposite_opposite)]
    rw [hiff] at ht'
    split at ht
    · rw [if_pos ‹_›] at ht'
      cases ht
      cases ht'
      exact .inl rfl
    · rw [if_neg ‹_›] at ht'
      exact hf r t t' ht ht'
  · have hne {d d' : Expr} (hd : d.isNumber = true) (hd' : d'.isNumber = false) :
        ¬ (c && d == d') = true := by
      rw [Bool.and_eq_true, beq_iff_eq]
      rintro ⟨-, rfl⟩
      rw [hd] at hd'
      cases hd'
    rw [if_neg (hne hr he)] at ht
    rw [if_neg (hne hr' (by rwa [isNumber_opposite]))] at ht'
    obtain ⟨q, rfl⟩ := isNumber_iff.1 hr
    obtain ⟨q', rfl⟩ := isNumber_iff.1 hr'
    exact .inr ⟨hnumber q t ht, hnumber q' t' ht'⟩

/-- Finishing a sum under opposite signs gives opposed results. -/
theorem finishSum_opposed {s : Bool} {es : List Expr} {r r' : Expr}
    (hr : finishSum f s es = .ok r) (hr' : finishSum f (!s) es = .ok r') : Opposed r r' := by
  rw [finishSum] at hr hr'
  cases hq : numbers? es with
  | some q =>
    rw [hq] at hr hr'
    cases hr
    cases hr'
    exact opposed_numbers _ _
  | none =>
    rw [hq] at hr hr'
    obtain ⟨t, ht, hr⟩ := bind_eq_ok hr
    obtain ⟨t', ht', hr'⟩ := bind_eq_ok hr'
    exact (collectSum_opposed ht ht').round hf hnumber (e := sum s es) (c := true) rfl hr hr'

/-- Finishing a product under opposite signs gives opposed results. -/
theorem finishProduct_opposed {s : Bool} {es : List Expr} {r r' : Expr}
    (hr : finishProduct f s es = .ok r) (hr' : finishProduct f (!s) es = .ok r') :
    Opposed r r' := by
  rw [finishProduct] at hr hr'
  cases hq : numbers? es with
  | some q =>
    rw [hq] at hr hr'
    cases hr
    cases hr'
    exact opposed_numbers _ _
  | none =>
    rw [hq] at hr hr'
    obtain ⟨t, ht, hr⟩ := bind_eq_ok hr
    obtain ⟨t', ht', hr'⟩ := bind_eq_ok hr'
    rw [productSign_not] at ht'
    exact (collectProduct_opposed ht ht').round hf hnumber (e := product s (unsigned es))
      (c := true) rfl hr hr'

omit hnumber in
/-- Rewriting a power under opposite signs gives opposed results. -/
theorem rewritePower_opposed {s : Bool} {b x r r' : Expr} (hr : rewritePower f s b x = .ok r)
    (hr' : rewritePower f (!s) b x = .ok r') : Opposed r r' := by
  have hone : signedOne s = .ok r → signedOne (!s) = .ok r' → Opposed r r' := by
    intro h h'
    cases s
    · cases h
    · cases h'
  rw [rewritePower] at hr hr'
  cases hrule : powerRule b x with
  | zeroBase =>
    rw [hrule] at hr hr'
    cases hr
    cases hr'
    exact opposed_numbers _ _
  | oneBase =>
    rw [hrule] at hr hr'
    exact hone hr hr'
  | zeroExponent =>
    rw [hrule] at hr hr'
    exact hone hr hr'
  | oneExponent =>
    rw [hrule] at hr hr'
    cases hr
    cases hr'
    refine opposed_withSign b ?_
    cases s <;> cases b.negated <;> rfl
  | nested b' x' =>
    rw [hrule] at hr hr'
    exact hf _ r r' hr hr'
  | negatedBase =>
    rw [hrule] at hr hr'
    cases hr
    cases hr'
    exact .inl rfl
  | none =>
    rw [hrule] at hr hr'
    cases hr
    cases hr'
    exact .inl rfl

/-- Finishing a power under opposite signs gives opposed results. -/
theorem finishPower_opposed {s : Bool} {b x r r' : Expr} (hr : finishPower f s b x = .ok r)
    (hr' : finishPower f (!s) b x = .ok r') : Opposed r r' := by
  rw [finishPower] at hr hr'
  obtain ⟨o, ho, hr⟩ := bind_eq_ok hr
  obtain ⟨o', ho', hr'⟩ := bind_eq_ok hr'
  cases ho.symm.trans ho'
  cases o with
  | some q =>
    cases hr
    cases hr'
    exact opposed_numbers _ _
  | none =>
    obtain ⟨t, ht, hr⟩ := bind_eq_ok hr
    obtain ⟨t', ht', hr'⟩ := bind_eq_ok hr'
    exact (rewritePower_opposed hf ht ht').round hf hnumber (e := power s b x) rfl hr hr'

end Round

/-! ### The simplifier -/

theorem eq_of_simplifyWithin_rational {n : Nat} {q : Fraction} {r : Expr}
    (h : simplifyWithin n (rational q) = .ok r) : r = rational q.reduce := by
  cases n with
  | zero => cases h
  | succ n =>
    cases h
    rfl

/-- A node and its opposite simplify to opposites, or both to numbers. -/
theorem opposed_of_simplifyWithin {n : Nat} {e r r' : Expr} (hr : simplifyWithin n e = .ok r)
    (hr' : simplifyWithin n e.opposite = .ok r') : Opposed r r' := by
  induction n generalizing e r r' with
  | zero => cases hr
  | succ n ih =>
    have hf : ∀ e r r', simplifyWithin n e = .ok r → simplifyWithin n e.opposite = .ok r' →
        Opposed r r' := fun e r r' => ih
    have hnumber : ∀ q r, simplifyWithin n (rational q) = .ok r → r.isNumber = true := by
      intro q r h
      rw [eq_of_simplifyWithin_rational h]
      rfl
    cases e with
    | rational q =>
      cases hr
      cases hr'
      exact opposed_numbers _ _
    | symbol s c =>
      cases hr
      cases hr'
      exact .inl rfl
    | sum s es =>
      obtain ⟨rs, hrs, hr⟩ := bind_eq_ok hr
      obtain ⟨rs', hrs', hr'⟩ := bind_eq_ok hr'
      cases hrs.symm.trans hrs'
      exact finishSum_opposed hf hnumber hr hr'
    | product s es =>
      obtain ⟨rs, hrs, hr⟩ := bind_eq_ok hr
      obtain ⟨rs', hrs', hr'⟩ := bind_eq_ok hr'
      cases hrs.symm.trans hrs'
      exact finishProduct_opposed hf hnumber hr hr'
    | power s b x =>
      obtain ⟨b₁, hb, hr⟩ := bind_eq_ok hr
      obtain ⟨x₁, hx, hr⟩ := bind_eq_ok hr
      obtain ⟨b₂, hb', hr'⟩ := bind_eq_ok hr'
      obtain ⟨x₂, hx', hr'⟩ := bind_eq_ok hr'
      cases hb.symm.trans hb'
      cases hx.symm.trans hx'
      exact finishPower_opposed hf hnumber hr hr'

theorem size_opposite (e : Expr) : e.opposite.size = e.size := by
  cases e <;> rfl

/-- Opposites simplify to opposed results. -/
theorem opposed_of_simplify {e r r' : Expr} (hr : simplify e = .ok r)
    (hr' : simplify e.opposite = .ok r') : Opposed r r' := by
  have hbound : e.opposite.simplifyBound = e.simplifyBound := by
    rw [simplifyBound, simplifyBound, size_opposite]
  rw [simplify, hbound] at hr'
  exact opposed_of_simplifyWithin hr hr'

end SymScript.Expr
